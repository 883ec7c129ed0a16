import Stepwise.Proofs.BooleanEquality
import Stepwise.Proofs.Number.Exact
import Stepwise.Proofs.Number.Range
import Stepwise.Proofs.Value.Plain
/-!
The laws of the comparisons. All four are tests of one order, of the texts of two values or of their numbers; there is none
where a number is a nan.
-/

namespace Stepwise

theorem Text.order_eq (t u : Text) : t.order u = compare t u := by
  induction t generalizing u with
  | nil => cases u <;> rfl
  | cons p t ih =>
    cases u with
    | nil => rfl
    | cons q u => exact (congrArg (compare p q).then (ih u)).trans List.compareLex_cons_cons.symm

theorem Double.isNaN_of_ofInt? {i : Int} {x : Double} (h : ofInt? i = some x) : x.isNaN = false := by
  unfold ofInt? at h
  dsimp only at h
  split at h
  next hfinite =>
    cases h
    revert hfinite
    cases ofUnits false i 1 with
    | nan => exact Bool.noConfusion
    | _ => exact fun _ ↦ rfl
  next => cases h

namespace Num

variable {x y z : Num}

theorem compare?_swap (x y : Num) : y.compare? x = (x.compare? y).map Ordering.swap := by
  rw [compare?_eq, compare?_eq]
  cases x.value? with
  | none => cases y.value? <;> rfl
  | some v =>
    cases y.value? with
    | none => rfl
    | some w => exact congrArg some Std.OrientedOrd.eq_swap

theorem compare?_trans (hxy : x.compare? y = some .lt) (hyz : y.compare? z = some .lt) : x.compare? z = some .lt := by
  obtain ⟨u, v, hx, hy, huv⟩ := compare?_eq_some_iff.mp hxy
  obtain ⟨v', w, hy', hz, hvw⟩ := compare?_eq_some_iff.mp hyz
  cases hy.symm.trans hy'
  exact compare?_eq_some_iff.mpr ⟨u, w, hx, hz, Std.TransCmp.lt_trans huv hvw⟩

theorem isNaN_iff : x.isNaN = true ↔ x.value? = none := by
  rw [value?_eq_none_iff]
  cases x with
  | int i => exact iff_of_false Bool.false_ne_true nofun
  | float d => cases d <;> simp [isNaN, Double.isNaN]

theorem compare?_eq_none_iff : x.compare? y = none ↔ (x.isNaN || y.isNaN) = true := by
  rw [compare?_eq, Bool.or_eq_true_iff, isNaN_iff, isNaN_iff]
  cases x.value? with
  | none => exact iff_of_true rfl (.inl rfl)
  | some v => cases y.value? <;> simp

theorem isNaN_of_toDouble {d : Double} (h : x.toDouble = .ok d) : d.isNaN = x.isNaN := by
  cases x with
  | int i => exact Double.isNaN_of_ofInt? (ofInt?_of_toDouble h)
  | float d' =>
    cases h
    rfl

theorem isNaN_of_checkNaN {b : Bool} (h : x.checkNaN = .ok b) : x.isNaN = b := by
  obtain ⟨d, hd, hb⟩ := Except.exists_of_bind_eq_ok h
  rw [← isNaN_of_toDouble hd]
  exact Except.ok.inj hb

theorem checkNaN_int (i : Int) :
    (int i).checkNaN = if i.natAbs < Double.limit then .ok false else .error .integerTooLarge := by
  have hnone := Double.ofInt?_eq_none_iff i
  cases hd : Double.ofInt? i with
  | none =>
    rw [if_neg (Nat.not_lt.mpr (hnone.mp hd)), checkNaN, toDouble, hd]
    rfl
  | some d =>
    have hsmall : i.natAbs < Double.limit := Nat.not_le.mp fun hle ↦ Option.some_ne_none d (hd.symm.trans (hnone.mpr hle))
    rw [if_pos hsmall, checkNaN, toDouble, hd, ← Double.isNaN_of_ofInt? hd]
    rfl

theorem compare?_int (i j : Int) : (int i).compare? (int j) = some (compare i j) := by
  have hless (i j : Int) : ((i : ℚ) : WithTop ℚ) < ((j : ℚ) : WithTop ℚ) ↔ i < j := by
    rw [WithTop.coe_lt_coe, Int.cast_lt]
  refine compare?_eq_some_iff.mpr ⟨_, _, rfl, rfl, compare_congr ?_ ?_⟩
  · rw [WithBot.coe_lt_coe, hless]
  · rw [WithBot.coe_lt_coe, hless]

/-- The order of two numbers, once both of them are tested for nans. -/
def order? (x y : Num) : Except Fault (Option Ordering) := do
  if ← x.checkNaN then return none
  if ← y.checkNaN then return none
  return x.compare? y

theorem order?_cases {o : Option Ordering} (h : x.order? y = .ok o) :
    x.compare? y = o ∧ (o = none ∨ x.checkNaN = .ok false ∧ y.checkNaN = .ok false) := by
  obtain ⟨b, hx, h⟩ := Except.exists_of_bind_eq_ok h
  cases b with
  | true =>
    cases h
    refine ⟨compare?_eq_none_iff.mpr ?_, .inl rfl⟩
    rw [isNaN_of_checkNaN hx, Bool.true_or]
  | false =>
    obtain ⟨b, hy, h⟩ := Except.exists_of_bind_eq_ok h
    cases b with
    | true =>
      cases h
      refine ⟨compare?_eq_none_iff.mpr ?_, .inl rfl⟩
      rw [isNaN_of_checkNaN hy, Bool.or_true]
    | false => exact ⟨Except.ok.inj h, .inr ⟨hx, hy⟩⟩

theorem order?_of_checkNaN (hx : x.checkNaN = .ok false) (hy : y.checkNaN = .ok false) :
    x.order? y = .ok (x.compare? y) := by
  rw [order?, hx, hy]
  rfl

theorem order?_trans (hxy : x.order? y = .ok (some .lt)) (hyz : y.order? z = .ok (some .lt)) :
    x.order? z = .ok (some .lt) := by
  obtain ⟨hless, hnone | ⟨hx, -⟩⟩ := order?_cases hxy
  · cases hnone
  obtain ⟨hless', hnone | ⟨-, hz⟩⟩ := order?_cases hyz
  · cases hnone
  rw [order?_of_checkNaN hx hz, compare?_trans hless hless']

end Num

namespace Value

variable {heap : Heap} {a b c : Value}

def isString : Value → Bool
  | string _ => true
  | _ => false

theorem exists_string_of_isString (h : a.isString = true) : ∃ t, a = string t := by
  cases a with
  | string t => exact ⟨t, rfl⟩
  | _ => cases h

theorem exists_number_of_isNumber (h : a.isNumber = true) : ∃ x, a = number x := by
  cases a with
  | number x => exact ⟨x, rfl⟩
  | _ => cases h

theorem order?_of_not_isString (h : (a.isString && b.isString) = false) :
    order? heap a b = (do (← a.toNumber heap).order? (← b.toNumber heap)) := by
  cases a with
  | string t =>
    cases b with
    | string u => cases h
    | _ => rfl
  | _ => rfl

theorem order?_of_toNumber {x y : Num} (h : (a.isString && b.isString) = false) (ha : a.toNumber heap = .ok x)
    (hb : b.toNumber heap = .ok y) : order? heap a b = x.order? y := by
  rw [order?_of_not_isString h, ha, hb]
  rfl

/-- What the order of two values is read off: texts, or else numbers. -/
inductive Ranked (heap : Heap) : Value → Value → Option Ordering → Prop
  | texts (t u : Text) : Ranked heap (string t) (string u) (some (compare t u))
  | numbers {a b : Value} {x y : Num} (hkind : (a.isString && b.isString) = false) (ha : a.toNumber heap = .ok x)
      (hb : b.toNumber heap = .ok y) : Ranked heap a b (x.compare? y)

theorem ranked_of_order? {o : Option Ordering} (h : order? heap a b = .ok o) : Ranked heap a b o := by
  cases hkind : a.isString && b.isString with
  | true =>
    obtain ⟨ha, hb⟩ := Bool.and_eq_true_iff.mp hkind
    obtain ⟨t, rfl⟩ := exists_string_of_isString ha
    obtain ⟨u, rfl⟩ := exists_string_of_isString hb
    cases h
    rw [Text.order_eq]
    exact .texts t u
  | false =>
    rw [order?_of_not_isString hkind] at h
    obtain ⟨x, hx, h⟩ := Except.exists_of_bind_eq_ok h
    obtain ⟨y, hy, h⟩ := Except.exists_of_bind_eq_ok h
    obtain ⟨rfl, -⟩ := Num.order?_cases h
    exact .numbers hkind hx hy

namespace Ranked

variable {o p : Option Ordering}

theorem swap (h : Ranked heap a b o) : Ranked heap b a (o.map Ordering.swap) := by
  cases h with
  | texts t u =>
    rw [Option.map_some, ← Std.OrientedOrd.eq_swap]
    exact .texts u t
  | numbers hkind ha hb =>
    rw [← Num.compare?_swap]
    exact .numbers (Bool.and_comm _ _ ▸ hkind) hb ha

theorem unique (h : Ranked heap a b o) (h' : Ranked heap a b p) : o = p := by
  cases h with
  | texts t u =>
    cases h' with
    | texts => rfl
    | numbers hkind => cases hkind
  | numbers hkind ha hb =>
    cases h' with
    | texts => cases hkind
    | numbers _ ha' hb' =>
      cases ha.symm.trans ha'
      cases hb.symm.trans hb'
      rfl

end Ranked

/-- One of two values is no text, and the number of one of them is a nan. -/
def Unordered (heap : Heap) (a b : Value) : Prop :=
  (a.isString && b.isString) = false ∧ ∃ v ∈ [a, b], ∃ x, v.toNumber heap = .ok x ∧ x.isNaN = true

theorem Ranked.eq_none_iff {o : Option Ordering} (h : Ranked heap a b o) : o = none ↔ Unordered heap a b := by
  cases h with
  | texts t u => exact iff_of_false (Option.some_ne_none _) fun hnan ↦ Bool.noConfusion hnan.1
  | @numbers _ _ x y hkind ha hb =>
    rw [Num.compare?_eq_none_iff, Bool.or_eq_true_iff]
    constructor
    · rintro (hx | hy)
      · exact ⟨hkind, a, List.mem_cons_self, x, ha, hx⟩
      · exact ⟨hkind, b, List.mem_cons_of_mem a List.mem_cons_self, y, hb, hy⟩
    · rintro ⟨-, v, hv, z, hz, hnan⟩
      rcases List.mem_pair.mp hv with rfl | rfl
      · cases ha.symm.trans hz
        exact .inl hnan
      · cases hb.symm.trans hz
        exact .inr hnan

theorem exists_order?_of_comparison {test : Ordering → Bool} {v : Value}
    (h : BinaryOp.comparison test heap a b = .ok v) : ∃ o, order? heap a b = .ok o ∧ boolean (o.any test) = v := by
  obtain ⟨o, ho, h⟩ := Except.exists_of_bind_eq_ok h
  exact ⟨o, ho, Except.ok.inj h⟩

theorem comparison_of_order? {o : Option Ordering} (test : Ordering → Bool) (h : order? heap a b = .ok o) :
    BinaryOp.comparison test heap a b = .ok (boolean (o.any test)) := by
  rw [BinaryOp.comparison, h]
  rfl

theorem comparison_eq_true_iff {o : Option Ordering} {test : Ordering → Bool} (h : order? heap a b = .ok o) :
    BinaryOp.comparison test heap a b = .ok (boolean true) ↔ o.any test = true := by
  rw [comparison_of_order? test h, Except.ok.injEq, boolean.injEq]

theorem comparison_swap {o p : Option Ordering} (hab : order? heap a b = .ok o) (hba : order? heap b a = .ok p)
    (test : Ordering → Bool) : BinaryOp.comparison test heap b a = BinaryOp.comparison (test ·.swap) heap a b := by
  obtain rfl := (ranked_of_order? hba).unique (ranked_of_order? hab).swap
  rw [comparison_of_order? _ hab, comparison_of_order? _ hba, Option.any_map]

theorem order?_eq_of_lt (h : BinaryOp.lt.apply heap a b = .ok (boolean true)) : order? heap a b = .ok (some .lt) := by
  obtain ⟨o, ho, hless⟩ := exists_order?_of_comparison h
  rw [boolean.injEq] at hless
  cases o with
  | none => cases hless
  | some o =>
    cases o with
    | lt => exact ho
    | eq | gt => cases hless

theorem lt_trans_of_kind (hkind : ([a, b, c].all isString || [a, b, c].all isNumber) = true)
    (hab : BinaryOp.lt.apply heap a b = .ok (boolean true)) (hbc : BinaryOp.lt.apply heap b c = .ok (boolean true)) :
    BinaryOp.lt.apply heap a c = .ok (boolean true) := by
  have hab := order?_eq_of_lt hab
  have hbc := order?_eq_of_lt hbc
  refine comparison_of_order? Ordering.isLT (o := some .lt) ?_
  rcases Bool.or_eq_true_iff.mp hkind with htexts | hnumbers
  · simp only [List.all_cons, List.all_nil, Bool.and_true, Bool.and_eq_true] at htexts
    obtain ⟨ha, hb, hc⟩ := htexts
    obtain ⟨t, rfl⟩ := exists_string_of_isString ha
    obtain ⟨u, rfl⟩ := exists_string_of_isString hb
    obtain ⟨w, rfl⟩ := exists_string_of_isString hc
    have htu := Option.some.inj (Except.ok.inj hab)
    have huw := Option.some.inj (Except.ok.inj hbc)
    rw [Text.order_eq] at htu huw
    rw [order?, Text.order_eq, Std.TransCmp.lt_trans htu huw]
  · simp only [List.all_cons, List.all_nil, Bool.and_true, Bool.and_eq_true] at hnumbers
    obtain ⟨ha, hb, hc⟩ := hnumbers
    obtain ⟨x, rfl⟩ := exists_number_of_isNumber ha
    obtain ⟨y, rfl⟩ := exists_number_of_isNumber hb
    obtain ⟨z, rfl⟩ := exists_number_of_isNumber hc
    exact Num.order?_trans hab hbc

end Value

namespace BinaryOp

open Value

variable {heap : Heap} {a b : Value}

def comparisons : List BinaryOp := [lt, le, gt, ge]

theorem exists_test {op : BinaryOp} (h : op ∈ comparisons) : ∃ test, ∀ heap a b, op.apply heap a b = comparison test heap a b := by
  simp only [comparisons, List.mem_cons, List.not_mem_nil, or_false] at h
  rcases h with rfl | rfl | rfl | rfl <;> exact ⟨_, fun _ _ _ ↦ rfl⟩

theorem exists_of_order? {o : Option Ordering} (h : order? heap a b = .ok o) {op : BinaryOp} (hop : op ∈ comparisons) :
    ∃ r, op.apply heap a b = .ok (boolean r) := by
  obtain ⟨test, htest⟩ := exists_test hop
  exact ⟨_, (htest heap a b).trans (comparison_of_order? test h)⟩

/-- Where no comparison fails, the ones of the exchanged operands are the exchanged ones. If a number is a nan, and the
operands are not both texts, none of them holds. Otherwise the first operand is less, or more, or both at most and at least
the second one, and it is at most the second one if it is not more. Numbers are compared by their exact values, and among
texts as among numbers, less is transitive. -/
theorem comparisons_coherent (hab : ∀ op ∈ comparisons, ∃ v, op.apply heap a b = .ok v)
    (hba : ∀ op ∈ comparisons, ∃ v, op.apply heap b a = .ok v) :
    lt.apply heap a b = gt.apply heap b a ∧ le.apply heap a b = ge.apply heap b a ∧
    (Unordered heap a b → ∀ op ∈ comparisons, op.apply heap a b = .ok (boolean false)) ∧
    (¬ Unordered heap a b → ∃ less more atMost atLeast : Bool,
      lt.apply heap a b = .ok (boolean less) ∧ gt.apply heap a b = .ok (boolean more) ∧
      le.apply heap a b = .ok (boolean atMost) ∧ ge.apply heap a b = .ok (boolean atLeast) ∧
      [less, more, atMost && atLeast].count true = 1 ∧ atMost = !more) ∧
    (∀ x y v w, a = number x → b = number y → x.value? = some v → y.value? = some w →
      (lt.apply heap a b = .ok (boolean true) ↔ v < w) ∧ (le.apply heap a b = .ok (boolean true) ↔ v ≤ w)) ∧
    ∀ c, ([a, b, c].all isString || [a, b, c].all isNumber) = true → lt.apply heap a b = .ok (boolean true) →
      lt.apply heap b c = .ok (boolean true) → lt.apply heap a c = .ok (boolean true) := by
  obtain ⟨_, hanswer⟩ := hab lt List.mem_cons_self
  obtain ⟨_, hanswer'⟩ := hba lt List.mem_cons_self
  obtain ⟨o, ho, -⟩ := exists_order?_of_comparison hanswer
  obtain ⟨p, hp, -⟩ := exists_order?_of_comparison hanswer'
  have hranked := ranked_of_order? ho
  refine ⟨?_, ?_, fun hnan op hop ↦ ?_, fun hnan ↦ ?_, fun x y v w hx hy hv hw ↦ ?_, fun c ↦ lt_trans_of_kind⟩
  · refine Eq.trans ?_ (comparison_swap ho hp Ordering.isGT).symm
    simp only [Ordering.isGT_swap]
    rfl
  · refine Eq.trans ?_ (comparison_swap ho hp Ordering.isGE).symm
    simp only [Ordering.isGE_swap]
    rfl
  · obtain rfl := hranked.eq_none_iff.mpr hnan
    obtain ⟨test, htest⟩ := exists_test hop
    rw [htest, comparison_of_order? test ho]
    rfl
  · obtain ⟨r, rfl⟩ := Option.ne_none_iff_exists'.mp (mt hranked.eq_none_iff.mp hnan)
    refine ⟨r.isLT, r.isGT, r.isLE, r.isGE, comparison_of_order? _ ho, comparison_of_order? _ ho,
      comparison_of_order? _ ho, comparison_of_order? _ ho, ?_⟩
    cases r with
    | lt | eq | gt => exact ⟨rfl, rfl⟩
  · subst hx hy
    obtain rfl := hranked.unique (.numbers rfl rfl rfl)
    have horder : x.compare? y = some (compare v w) := Num.compare?_eq_some_iff.mpr ⟨v, w, hv, hw, rfl⟩
    refine ⟨(comparison_eq_true_iff ho).trans ?_, (comparison_eq_true_iff ho).trans ?_⟩
    · rw [horder, Option.any_some, Ordering.isLT_iff_eq_lt, compare_lt_iff_lt]
    · rw [horder, Option.any_some, Ordering.isLE_iff_ne_gt, compare_gt_iff_gt, not_lt]

end BinaryOp

/-- The text of an array in an array of the number 1 is the numeral of it, which is less than 2. -/
theorem comparisons_coherent_nested :
    (∀ op ∈ BinaryOp.comparisons, ∃ v, op.apply .nestedOne (.object (.array 0)) (.ofInt 2) = .ok v) ∧
    (∀ op ∈ BinaryOp.comparisons, ∃ v, op.apply .nestedOne (.ofInt 2) (.object (.array 0)) = .ok v) ∧
    BinaryOp.lt.apply .nestedOne (.object (.array 0)) (.ofInt 2) = .ok (.boolean true) ∧
    BinaryOp.gt.apply .nestedOne (.ofInt 2) (.object (.array 0)) = .ok (.boolean true) := by
  have hspells : (Value.object (.array 0)).toNumber .nestedOne = .ok (.int 1) := rfl
  have hone : (Num.int 1).checkNaN = .ok false := (Num.checkNaN_int 1).trans (if_pos (Double.lt_limit (by decide)))
  have htwo : (Num.int 2).checkNaN = .ok false := (Num.checkNaN_int 2).trans (if_pos (Double.lt_limit (by decide)))
  have horder : Value.order? .nestedOne (.object (.array 0)) (.ofInt 2) = .ok (some .lt) := by
    rw [Value.order?_of_toNumber rfl hspells rfl, Num.order?_of_checkNaN hone htwo, Num.compare?_int]
    rfl
  have horder' : Value.order? .nestedOne (.ofInt 2) (.object (.array 0)) = .ok (some .gt) := by
    rw [Value.order?_of_toNumber rfl rfl hspells, Num.order?_of_checkNaN htwo hone, Num.compare?_int]
    rfl
  have hab : ∀ op ∈ BinaryOp.comparisons, ∃ v, op.apply .nestedOne (.object (.array 0)) (.ofInt 2) = .ok v :=
    fun op hop ↦ (BinaryOp.exists_of_order? horder hop).imp' .boolean fun _ ↦ id
  have hba : ∀ op ∈ BinaryOp.comparisons, ∃ v, op.apply .nestedOne (.ofInt 2) (.object (.array 0)) = .ok v :=
    fun op hop ↦ (BinaryOp.exists_of_order? horder' hop).imp' .boolean fun _ ↦ id
  have hless : BinaryOp.lt.apply .nestedOne (.object (.array 0)) (.ofInt 2) = .ok (.boolean true) :=
    Value.comparison_of_order? Ordering.isLT horder
  exact ⟨hab, hba, hless, (BinaryOp.comparisons_coherent hab hba).1.symm.trans hless⟩

end Stepwise
