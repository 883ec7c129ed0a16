import Stepwise.Run.Evaluator
import Stepwise.Proofs.Value.Plain
/-!
What computations on values may raise: faults of the program that is run, and never one about
scopes or promises.
-/

namespace Stepwise

/-- Whether a fault is about scopes or promises. -/
def Fault.isInternal : Fault → Bool
  | popOfGlobalScope | emptyChain | noFunctionScope | unknownPromise _ => true
  | _ => false

/-- Whether a fault tells of a state out of order: of a scope too few, or of a promise that is not there. -/
def Fault.isCorruption : Fault → Bool
  | popOfGlobalScope | unknownPromise _ => true
  | _ => false

theorem Fault.isCorruption_of_isInternal {f : Fault} (h : f.isInternal = false) : f.isCorruption = false := by
  cases f with
  | popOfGlobalScope => cases h
  | unknownPromise label => cases h
  | _ => rfl

theorem Fault.ne_popOfGlobalScope {f : Fault} (h : f.isCorruption = false) : f ≠ popOfGlobalScope := by
  rintro rfl
  cases h

/-- The faults of a computation are all of a kind. -/
def Raises {α : Type} (P : Fault → Prop) (e : Except Fault α) : Prop := ∀ f, e = .error f → P f

/-- The faults of a computation are not about scopes or promises. -/
abbrev Computes {α : Type} (e : Except Fault α) : Prop := Raises (fun f ↦ f.isInternal = false) e

namespace Raises

variable {α β : Type} {P : Fault → Prop}

theorem ok (a : α) : Raises P (.ok a) := nofun

theorem pure (a : α) : Raises P (Pure.pure a) := nofun

theorem error {f : Fault} (h : P f) : Raises P (.error f : Except Fault α) := fun _ e ↦ by
  cases e
  exact h

theorem bind_of_eq {e : Except Fault α} {g : α → Except Fault β} (h : Raises P e)
    (hg : ∀ a, e = .ok a → Raises P (g a)) : Raises P (e >>= g) := by
  cases e with
  | ok a => exact hg a rfl
  | error f => exact .error (h f rfl)

theorem bind {e : Except Fault α} {g : α → Except Fault β} (h : Raises P e) (hg : ∀ a, Raises P (g a)) :
    Raises P (e >>= g) := h.bind_of_eq fun a _ ↦ hg a

theorem imp {Q : Fault → Prop} {e : Except Fault α} (h : Raises P e) (hPQ : ∀ f, P f → Q f) : Raises Q e :=
  fun f hf ↦ hPQ f (h f hf)

theorem map {e : Except Fault α} (h : Raises P e) (g : α → β) : Raises P (do return g (← e)) :=
  h.bind fun _ ↦ .pure _

theorem ite {c : Prop} [Decidable c] {x y : Except Fault α} (hx : Raises P x) (hy : Raises P y) :
    Raises P (if c then x else y) := by
  split
  · exact hx
  · exact hy

end Raises

namespace Num

variable {P : Fault → Prop} {a b : Num}

theorem computes_toDouble (n : Num) : Computes n.toDouble := by
  unfold toDouble
  split
  · split
    · exact .ok _
    · exact .error rfl
  · exact .ok _

theorem raises_checkNaN (ha : Raises P a.toDouble) : Raises P a.checkNaN := ha.map _

/-- Arithmetic has the faults of making doubles of its operands. -/
theorem raises_arith (exact : Int → Int → Int) (rounded : Double → Double → Double) (ha : Raises P a.toDouble)
    (hb : Raises P b.toDouble) : Raises P (arith exact rounded a b) := by
  have hrounded : Raises P (do return float (rounded (← a.toDouble) (← b.toDouble))) :=
    ha.bind fun x ↦ hb.map (float ∘ rounded x)
  cases a with
  | int i =>
    cases b with
    | int j => exact .ok _
    | float y => exact hrounded
  | float x => exact hrounded

theorem raises_div (ha : Raises P a.toDouble) (hb : Raises P b.toDouble)
    (hexact : ∀ i j, a = int i → b = int j → j ≠ 0 → Raises P (divInt i j)) : Raises P (a.div b) := by
  have hrounded : Raises P (do return float ((← a.toDouble).div (← b.toDouble))) :=
    ha.bind fun x ↦ hb.map (float ∘ x.div)
  unfold div
  by_cases hzero : b.isZero = true
  · rw [if_pos hzero]
    exact ha.bind fun x ↦ .ite (.pure _) (.pure _)
  · rw [if_neg hzero]
    split
    · exact hexact _ _ rfl rfl fun hj ↦ hzero (decide_eq_true hj)
    · exact hrounded

theorem raises_rem (ha : Raises P a.toDouble) (hb : Raises P b.toDouble) : Raises P (a.rem b) := by
  unfold rem
  refine .ite (.ok _) (ha.bind fun x ↦ .ite ?_ (.pure _))
  exact hb.map (float ∘ x.rem)

theorem computes_divInt (i j : Int) : Computes (divInt i j) := by
  unfold divInt
  dsimp only
  split
  · exact .error rfl
  · exact .ok _

theorem computes_arith (exact : Int → Int → Int) (rounded : Double → Double → Double) (a b : Num) :
    Computes (arith exact rounded a b) := raises_arith exact rounded a.computes_toDouble b.computes_toDouble

theorem computes_ofLiteral (literal : Text) : Computes (ofLiteral literal) := by
  unfold ofLiteral
  dsimp only
  split
  · exact .ok _
  · split
    · exact .ok _
    · exact .error rfl

end Num

namespace Text

theorem computes_codePoint (n : Int) : Computes (codePoint n) := by
  unfold codePoint
  refine .ite (.error rfl) ?_
  split
  · exact .ok _
  · exact .error rfl

theorem computes_hexadecimalPoint (digits : List Char) : Computes (hexadecimalPoint digits) := by
  unfold hexadecimalPoint
  split
  · exact (computes_codePoint _).map _
  · exact .error rfl

theorem computes_decodeEscape (sequence : String) : Computes (decodeEscape sequence) := by
  unfold decodeEscape decodeEscaped
  split
  · exact .ok _
  · exact computes_hexadecimalPoint _
  · split
    · exact .ok _
    · exact .ite (.ok _) (.ok _)
    · exact .ite (computes_hexadecimalPoint _) (.ite (.ok _) (.ok _))

end Text

namespace Value

variable (heap : Heap) (v w : Value)

theorem computes_toText : Computes (v.toText heap) := by
  unfold toText
  cases v.toText? heap with
  | some t => exact .ok t
  | none => exact .error rfl

theorem computes_toNumber : Computes (v.toNumber heap) := by
  cases v with
  | object a => exact ((object a).computes_toText heap).map _
  | _ => exact .ok _

theorem computes_toPrimitive : Computes (v.toPrimitive heap) := by
  cases v with
  | function f => exact ((function f).computes_toText heap).map _
  | object a => exact ((object a).computes_toText heap).map _
  | promise a => exact ((promise a).computes_toText heap).map _
  | _ => exact .ok _

theorem computes_looseEquals : Computes (looseEquals heap v w) := by
  have hconverted : Computes (convertedEquals heap v w) := by
    refine .ite ?_ ?_
    · exact (v.computes_toNumber ∅).bind fun x ↦ (w.computes_toNumber ∅).map _
    · refine (v.computes_toPrimitive heap).bind fun a ↦ (w.computes_toPrimitive heap).bind fun b ↦ ?_
      split <;> exact .pure _
  exact .ite (.ok _) (.ite (.ok _) hconverted)

variable {heap v w}

theorem toPrimitive_cases {p : Value} (h : v.toPrimitive heap = .ok p) : p = v ∨ ∃ t, p = string t := by
  cases v with
  | function f | object a | promise a =>
    obtain ⟨t, rfl⟩ := Except.exists_of_map_eq_ok h
    exact .inr ⟨t, rfl⟩
  | _ => exact .inl (Except.ok.inj h).symm

/-- The faults of making an operand what an operator works on are all of a kind. -/
structure Converts (P : Fault → Prop) (heap : Heap) (v : Value) : Prop where
  primitive : Raises P (v.toPrimitive heap)
  number : Raises P (v.toNumber heap)
  double : ∀ x, v.toNumber heap = .ok x → Raises P x.toDouble

theorem computes_converts (heap : Heap) (v : Value) : v.Converts (fun f ↦ f.isInternal = false) heap :=
  ⟨v.computes_toPrimitive heap, v.computes_toNumber heap, fun x _ ↦ x.computes_toDouble⟩

namespace Converts

variable {P : Fault → Prop}

theorem raises_truthy (h : v.Converts P heap) : Raises P v.truthy := by
  cases v with
  | number n => exact .ite (.ok _) ((Num.raises_checkNaN (h.double n rfl)).map _)
  | _ => exact .ok _

theorem raises_order? (hv : v.Converts P heap) (hw : w.Converts P heap) : Raises P (order? heap v w) := by
  unfold order?
  split
  · exact .ok _
  · refine hv.number.bind_of_eq fun x hx ↦ hw.number.bind_of_eq fun y hy ↦ ?_
    refine (Num.raises_checkNaN (hv.double x hx)).bind fun _ ↦ .ite (.pure _) ?_
    exact (Num.raises_checkNaN (hw.double y hy)).bind fun _ ↦ .ite (.pure _) (.pure _)

/-- An operation on numbers has its own faults and the ones of its operands. -/
theorem raises_numeric {f : Num → Num → Except Fault Num} (hv : v.Converts P heap) (hw : w.Converts P heap)
    (hf : ∀ x y, v.toNumber heap = .ok x → w.toNumber heap = .ok y → Raises P (f x y)) :
    Raises P (BinaryOp.numeric f heap v w) :=
  hv.number.bind_of_eq fun x hx ↦ hw.number.bind_of_eq fun y hy ↦ (hf x y hx hy).map _

theorem raises_arith (exact : Int → Int → Int) (rounded : Double → Double → Double) (hv : v.Converts P heap)
    (hw : w.Converts P heap) : Raises P (BinaryOp.numeric (Num.arith exact rounded) heap v w) :=
  hv.raises_numeric hw fun x y hx hy ↦ Num.raises_arith exact rounded (hv.double x hx) (hw.double y hy)

theorem raises_add (hv : v.Converts P heap) (hw : w.Converts P heap) : Raises P (add heap v w) := by
  refine hv.primitive.bind_of_eq fun p hp ↦ hw.primitive.bind_of_eq fun q hq ↦ ?_
  split
  · exact .pure _
  · exact .pure _
  next hleft hright =>
    obtain rfl | ⟨t, rfl⟩ := toPrimitive_cases hp
    · obtain rfl | ⟨u, rfl⟩ := toPrimitive_cases hq
      · exact hv.raises_arith _ _ hw
      · exact absurd rfl (hright u)
    · exact absurd rfl (hleft t)

end Converts

end Value

theorem UnaryOp.raises_apply {P : Fault → Prop} {heap : Heap} {v : Value} (op : UnaryOp) (h : v.Converts P heap) :
    Raises P (op.apply heap v) := by
  cases op with
  | not => exact h.raises_truthy.map _
  | minus => exact h.number.map _
  | plus => exact h.number.map _
  | typeof | void => exact .ok _

/-- A binary operator has the faults of its operands, apart from equality and from quotients of integers. -/
theorem BinaryOp.raises_apply {P : Fault → Prop} {heap : Heap} {v w : Value} (op : BinaryOp) (hv : v.Converts P heap)
    (hw : w.Converts P heap) (hequals : Raises P (Value.looseEquals heap v w))
    (hquotient : ∀ i j, v.toNumber heap = .ok (.int i) → w.toNumber heap = .ok (.int j) → j ≠ 0 → Raises P (Num.divInt i j)) :
    Raises P (op.apply heap v w) := by
  have hcomparison (test : Ordering → Bool) : Raises P (comparison test heap v w) := (hv.raises_order? hw).map _
  cases op with
  | add => exact hv.raises_add hw
  | sub | mul => exact hv.raises_arith _ _ hw
  | div =>
    refine hv.raises_numeric hw fun x y hx hy ↦ Num.raises_div (hv.double x hx) (hw.double y hy) ?_
    rintro i j rfl rfl
    exact hquotient i j hx hy
  | rem => exact hv.raises_numeric hw fun x y hx hy ↦ Num.raises_rem (hv.double x hx) (hw.double y hy)
  | looseEq | looseNe => exact hequals.map _
  | strictEq | strictNe => exact .ok _
  | lt | le | gt | ge => exact hcomparison _

theorem Value.computes_truthy (v : Value) : Computes v.truthy := (computes_converts ∅ v).raises_truthy

theorem UnaryOp.computes_apply (op : UnaryOp) (heap : Heap) (v : Value) : Computes (op.apply heap v) :=
  op.raises_apply (v.computes_converts heap)

theorem BinaryOp.computes_apply (op : BinaryOp) (heap : Heap) (v w : Value) : Computes (op.apply heap v w) :=
  op.raises_apply (v.computes_converts heap) (w.computes_converts heap) (Value.computes_looseEquals heap v w)
    fun i j _ _ _ ↦ Num.computes_divInt i j

theorem computes_arrayIndex? (key : Text) : Computes (arrayIndex? key) := by
  unfold arrayIndex?
  refine .ite ?_ (.ok _)
  cases Numeral.integer? key with
  | some i => exact .ok _
  | none => exact .error rfl

/-- Reading and writing have only the fault of the key, except on undefined and null. -/
theorem Cell.raises_read {P : Fault → Prop} (cell : Cell) {key : Text} (h : Raises P (arrayIndex? key)) :
    Raises P (cell.read key) := by
  refine .ite (.ite (.pure _) ?_) (.pure _)
  refine h.bind fun index ↦ ?_
  cases index <;> exact .pure _

theorem Text.raises_read {P : Fault → Prop} (t : Text) {key : Text} (h : Raises P (arrayIndex? key)) :
    Raises P (t.read key) := by
  refine .ite (.pure _) (h.bind fun index ↦ ?_)
  cases index <;> exact .pure _

namespace Heap

variable {P : Fault → Prop} {receiver : Value} {key : Text}

theorem raises_getProperty (heap : Heap) (h : Raises P (arrayIndex? key))
    (hnullish : receiver.isNullish = true → P (.unreadable (nullishName receiver) key)) :
    Raises P (heap.getProperty receiver key) := by
  cases receiver with
  | undefined | null => exact .error (hnullish rfl)
  | string t => exact t.raises_read h
  | object address =>
    unfold getProperty
    dsimp only
    cases heap.get? address with
    | some cell => exact cell.raises_read h
    | none => exact .ok _
  | _ => exact .ok _

theorem raises_setProperty (heap : Heap) (v : Value) (h : Raises P (arrayIndex? key))
    (hnullish : receiver.isNullish = true → P (.unwritable (nullishName receiver) key)) :
    Raises P (heap.setProperty receiver key v) := by
  cases receiver with
  | undefined | null => exact .error (hnullish rfl)
  | object address =>
    unfold setProperty
    dsimp only
    split
    · refine .ite (h.bind fun index ↦ ?_) (.ok _)
      cases index <;> exact .pure _
    · exact .ok _
  | _ => exact .ok _

theorem computes_getProperty (heap : Heap) (receiver : Value) (key : Text) :
    Computes (heap.getProperty receiver key) := heap.raises_getProperty (computes_arrayIndex? key) fun _ ↦ rfl

theorem computes_setProperty (heap : Heap) (receiver : Value) (key : Text) (v : Value) :
    Computes (heap.setProperty receiver key v) := heap.raises_setProperty v (computes_arrayIndex? key) fun _ ↦ rfl

end Heap

theorem Evaluator.computes_stepped (increments : Bool) (old : Num) : Computes (stepped increments old) :=
  .ite (Num.computes_arith _ _ old _) (Num.computes_arith _ _ old _)

end Stepwise
