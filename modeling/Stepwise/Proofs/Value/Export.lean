import Stepwise.State.Export
import Stepwise.Proofs.Json.Style
/-!
Values in a document of a state. Two values that have the same document look alike: they are the same, or functions of the same
name, parameters and line, or one is a number that is not finite and the other the text that it is written as.
-/

namespace Stepwise

theorem CodePoint.ofChar_injective {c d : Char} (h : CodePoint.ofChar c = CodePoint.ofChar d) : c = d :=
  Char.toNat_inj.mp (Fin.mk.inj h)

theorem Text.ofString_injective {s t : String} (h : Text.ofString s = Text.ofString t) : s = t :=
  String.toList_inj.mp ((List.map_inj_right fun _ _ ↦ CodePoint.ofChar_injective).mp h)

theorem Json.isWhole_ofString (s : String) : (ofString s).IsWhole := isWhole_string_iff.mpr (Text.isWhole_ofString s)

theorem Json.isWhole_record {members : List (String × Json)} (h : ∀ m ∈ members, m.2.IsWhole) : (record members).IsWhole := by
  rw [record, isWhole_object_iff]
  exact List.forall_mem_map.mpr fun m hm ↦ ⟨Text.isWhole_ofString m.1, h m hm⟩

/-- The first key of an object. -/
def Json.tag? : Json → Option Text
  | object members => (members.map Prod.fst).head?
  | null | boolean _ | number _ | string _ | array _ => none

namespace Value

variable {v w : Value}

/-- Two values that a document of a state cannot tell apart. Addresses are told by their texts. -/
inductive LooksLike : Value → Value → Prop
  | same (v : Value) : LooksLike v v
  | function {f g : Function} (hname : f.name = g.name) (hparams : f.params = g.params) (hline : f.line = g.line) :
    LooksLike (function f) (function g)
  | object {a b : Address} (h : a.toText = b.toText) : LooksLike (object a) (object b)
  | promise {a b : Address} (h : a.toText = b.toText) : LooksLike (promise a) (promise b)
  | number_string {x : Double} (h : x.isFinite = false) : LooksLike (number (.float x)) (string x.toText)
  | string_number {x : Double} (h : x.isFinite = false) : LooksLike (string x.toText) (number (.float x))

/-- The key that tags a value for which there is no JSON. -/
def tag? : Value → Option String
  | undefined => some "__undefined__"
  | function _ => some "__function__"
  | object _ => some "__ref__"
  | promise _ => some "__promise__"
  | null | boolean _ | number _ | string _ => none

theorem tag?_toExport (v : Value) : v.toExport.tag? = v.tag?.map Text.ofString := by
  cases v with
  | number n =>
    cases n with
    | int i => rfl
    | float x =>
      unfold toExport
      dsimp only
      split <;> rfl
  | _ => simp only [toExport, tag?, Json.record, Json.tag?, List.map_cons, List.head?_cons, Option.map_some, Option.map_none]

theorem tag?_eq_of_toExport_eq (h : v.toExport = w.toExport) : v.tag? = w.tag? := by
  have htag := congrArg Json.tag? h
  rw [tag?_toExport, tag?_toExport] at htag
  exact Option.map_injective (fun _ _ ↦ Text.ofString_injective) htag

theorem LooksLike.symm (h : LooksLike v w) : LooksLike w v := by
  cases h with
  | same => exact .same v
  | function hname hparams hline => exact .function hname.symm hparams.symm hline.symm
  | object h => exact .object h.symm
  | promise h => exact .promise h.symm
  | number_string h => exact .string_number h
  | string_number h => exact .number_string h

theorem toExport_number (n : Num) : (number n).toExport = .number n ∨
    ∃ x, n = .float x ∧ x.isFinite = false ∧ (number n).toExport = .string x.toText := by
  cases n with
  | int i => exact .inl rfl
  | float x =>
    cases hfinite : x.isFinite with
    | true =>
      refine .inl ?_
      rw [toExport, hfinite]
      rfl
    | false =>
      refine .inr ⟨x, rfl, hfinite, ?_⟩
      rw [toExport, hfinite]
      rfl

/-- A number is told by its document from all others, be it written as one or as a text. -/
theorem toExport_number_injective {n m : Num} (h : (number n).toExport = (number m).toExport) : n = m := by
  obtain hn | ⟨x, rfl, -, hn⟩ := toExport_number n
  · obtain hm | ⟨y, rfl, -, hm⟩ := toExport_number m
    · rw [hn, hm] at h
      exact Json.number.inj h
    · rw [hn, hm] at h
      cases h
  · obtain hm | ⟨y, rfl, -, hm⟩ := toExport_number m
    · rw [hn, hm] at h
      cases h
    · rw [hn, hm] at h
      exact congrArg Num.float (Double.toText_injective (Json.string.inj h))

theorem looksLike_of_toExport_number {n : Num} (h : (number n).toExport = w.toExport) : LooksLike (number n) w := by
  cases w with
  | number m =>
    rw [toExport_number_injective h]
    exact .same _
  | string t =>
    obtain hn | ⟨x, rfl, hx, hn⟩ := toExport_number n
    · rw [hn] at h
      cases h
    · cases hn.symm.trans h
      exact .number_string hx
  | _ =>
    obtain hn | ⟨x, -, -, hn⟩ := toExport_number n
    · cases hn.symm.trans h
    · cases hn.symm.trans h

theorem looksLike_of_toExport_function {f g : Function} (h : (function f).toExport = (function g).toExport) :
    LooksLike (function f) (function g) := by
  have hstring {s t : String} (h : Json.ofString s = Json.ofString t) : s = t := Text.ofString_injective (Json.string.inj h)
  simp only [toExport, Json.record, Json.object.injEq, List.map_cons, List.map_nil, List.cons.injEq, Prod.mk.injEq, true_and,
    and_true, Json.array.injEq] at h
  obtain ⟨hname, hparams, hline⟩ := h
  refine .function (hstring hname) ((List.map_inj_right fun _ _ ↦ hstring).mp hparams) ?_
  exact Num.int.inj (Json.number.inj hline)

theorem looksLike_of_toExport_eq (h : v.toExport = w.toExport) : LooksLike v w := by
  have htag := tag?_eq_of_toExport_eq h
  cases v with
  | number n => exact looksLike_of_toExport_number h
  | undefined =>
    cases w with
    | undefined => exact .same _
    | _ => simp [tag?] at htag
  | null =>
    cases w with
    | null => exact .same _
    | number n => exact (looksLike_of_toExport_number h.symm).symm
    | _ => cases h
  | boolean b =>
    cases w with
    | boolean b' =>
      cases h
      exact .same _
    | number n => exact (looksLike_of_toExport_number h.symm).symm
    | _ => cases h
  | string t =>
    cases w with
    | string t' =>
      cases h
      exact .same _
    | number n => exact (looksLike_of_toExport_number h.symm).symm
    | _ => cases h
  | function f =>
    cases w with
    | function g => exact looksLike_of_toExport_function h
    | _ => simp [tag?] at htag
  | object a =>
    cases w with
    | object b =>
      simp only [toExport, Json.record, Json.object.injEq, List.map_cons, List.map_nil, List.cons.injEq, Prod.mk.injEq,
        true_and, and_true, Json.string.injEq] at h
      exact .object h
    | _ => simp [tag?] at htag
  | promise a =>
    cases w with
    | promise b =>
      simp only [toExport, Json.record, Json.object.injEq, List.map_cons, List.map_nil, List.cons.injEq, Prod.mk.injEq,
        true_and, and_true, Json.string.injEq] at h
      exact .promise h
    | _ => simp [tag?] at htag

/-- No text in a value has a high surrogate in front of a low one. -/
def IsWhole : Value → Prop
  | .string t => t.IsWhole
  | .object a | .promise a => a.toText.IsWhole
  | .undefined | .null | .boolean _ | .number _ | .function _ => True

theorem IsWhole.toExport (h : v.IsWhole) : v.toExport.IsWhole := by
  have hword {j : Json} {t : Text} (h : j.word? = some t) : j.IsWhole := Json.isWhole_of_word? h
  cases v with
  | undefined => exact Json.isWhole_record (List.forall_mem_singleton.mpr (hword rfl))
  | null => exact hword rfl
  | boolean b => exact hword rfl
  | number n =>
    rcases toExport_number n with hn | ⟨x, rfl, hx, hn⟩
    · exact hn ▸ hword rfl
    · rw [hn, Json.isWhole_string_iff]
      cases x with
      | nan => exact Text.isWhole_ofString "nan"
      | infinite negative =>
        cases negative with
        | true => exact Text.isWhole_ofString "-inf"
        | false => exact Text.isWhole_ofString "inf"
      | finite => cases hx
  | string t => exact Json.isWhole_string_iff.mpr h
  | function f =>
    refine Json.isWhole_record (List.forall_mem_cons.mpr ⟨Json.isWhole_ofString _, List.forall_mem_cons.mpr ⟨?_, ?_⟩⟩)
    · exact Json.isWhole_array_iff.mpr (List.forall_mem_map.mpr fun p _ ↦ Json.isWhole_ofString p)
    · exact List.forall_mem_singleton.mpr (hword rfl)
  | object a => exact Json.isWhole_record (List.forall_mem_singleton.mpr (Json.isWhole_string_iff.mpr h))
  | promise a => exact Json.isWhole_record (List.forall_mem_singleton.mpr (Json.isWhole_string_iff.mpr h))

end Value

end Stepwise
