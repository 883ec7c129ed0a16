import Stepwise.Proofs.Json.Style
/-!
Places in a document. A path of positions leads to a part of a document, and what is written around the part does not depend
on it.
-/

namespace Stepwise

namespace Json

variable {j inner part : Json} {path : List Nat} {i : Nat}

/-- The item or the member at a position. -/
def child? : Json → Nat → Option Json
  | array items, i => items[i]?
  | object members, i => (members[i]?).map Prod.snd
  | null, _ | boolean _, _ | number _, _ | string _, _ => none

/-- Changes the item or the member at a position. -/
def modify : Json → Nat → (Json → Json) → Json
  | array items, i, f => array (items.modify i f)
  | object members, i, f => object (members.modify i fun m ↦ (m.1, f m.2))
  | null, _, _ => null
  | boolean b, _, _ => boolean b
  | number n, _, _ => number n
  | string t, _, _ => string t

/-- The part that a path of positions leads to. -/
def get? : Json → List Nat → Option Json
  | j, [] => some j
  | j, i :: path => (j.child? i).bind fun child ↦ child.get? path

/-- Puts something in the place that a path of positions leads to. -/
def put : Json → List Nat → Json → Json
  | _, [], inner => inner
  | j, i :: path, inner => j.modify i fun child ↦ child.put path inner

theorem modify_eq_of_getElem? {α : Type} {l : List α} {a : α} (h : l[i]? = some a) (f : α → α) :
    l.modify i f = l.take i ++ f a :: l.drop (i + 1) := by
  obtain ⟨hi, rfl⟩ := List.getElem?_eq_some_iff.mp h
  exact List.modify_eq_take_cons_drop hi

theorem take_cons_drop_of_getElem? {α : Type} {l : List α} {a : α} (h : l[i]? = some a) :
    l.take i ++ a :: l.drop (i + 1) = l := by
  obtain ⟨hi, rfl⟩ := List.getElem?_eq_some_iff.mp h
  rw [List.getElem_cons_drop, List.take_append_drop]

theorem exists_join_eq (separator : Text) (ts us : List Text) :
    ∃ front back : Text, ∀ t, Text.join separator (ts ++ t :: us) = front ++ (t ++ back) := by
  cases ts with
  | nil => exact ⟨[], us.flatMap (separator ++ ·), fun t ↦ join_cons separator t us⟩
  | cons u ts =>
    refine ⟨u ++ ts.flatMap (separator ++ ·) ++ separator, us.flatMap (separator ++ ·), fun t ↦ ?_⟩
    rw [List.cons_append, join_cons, List.flatMap_append, List.flatMap_cons]
    simp only [List.append_assoc]

/-- Around an item or a member the same is written, whatever it is changed to. -/
theorem exists_compact_modify (ascii : Bool) (h : j.child? i = some part) :
    ∃ front back : Text, ∀ f : Json → Json, (j.modify i f).compact ascii = front ++ ((f part).compact ascii ++ back) := by
  cases j with
  | array items =>
    obtain ⟨front, back, htext⟩ :=
      exists_join_eq "," ((items.take i).map (compact ascii)) ((items.drop (i + 1)).map (compact ascii))
    refine ⟨Text.ofString "[" ++ front, back ++ Text.ofString "]", fun f ↦ ?_⟩
    rw [modify, compact, compactItems_eq, modify_eq_of_getElem? h, List.map_append, List.map_cons, htext]
    simp only [List.append_assoc]
  | object members =>
    obtain ⟨m, hm, rfl⟩ := Option.map_eq_some_iff.mp h
    obtain ⟨front, back, htext⟩ :=
      exists_join_eq "," ((members.take i).map (compactMember ascii)) ((members.drop (i + 1)).map (compactMember ascii))
    refine ⟨Text.ofString "\x7b" ++ (front ++ (stringText ascii m.1 ++ Text.ofString ":")), back ++ Text.ofString "\x7d",
      fun f ↦ ?_⟩
    rw [modify, compact, compactMembers_eq, modify_eq_of_getElem? hm, List.map_append, List.map_cons, htext, compactMember]
    simp only [List.append_assoc]
  | _ => cases h

theorem modify_eq_self {f : Json → Json} (h : j.child? i = some part) (hf : f part = part) : j.modify i f = j := by
  cases j with
  | array items => rw [modify, modify_eq_of_getElem? h, hf, take_cons_drop_of_getElem? h]
  | object members =>
    obtain ⟨m, hm, rfl⟩ := Option.map_eq_some_iff.mp h
    rw [modify, modify_eq_of_getElem? hm, hf, take_cons_drop_of_getElem? hm]
  | _ => rfl

theorem exists_compact_put (ascii : Bool) (h : j.get? path = some part) :
    ∃ front back : Text, ∀ inner : Json, (j.put path inner).compact ascii = front ++ (inner.compact ascii ++ back) := by
  induction path generalizing j with
  | nil => exact ⟨[], [], fun inner ↦ (List.append_nil _).symm⟩
  | cons i path ih =>
    obtain ⟨child, hchild, h⟩ := Option.bind_eq_some_iff.mp h
    obtain ⟨front, back, htext⟩ := exists_compact_modify ascii hchild
    obtain ⟨front', back', htext'⟩ := ih h
    refine ⟨front ++ front', back' ++ back, fun inner ↦ ?_⟩
    rw [put, htext, htext']
    simp only [List.append_assoc]

theorem put_self (h : j.get? path = some part) : j.put path part = j := by
  induction path generalizing j with
  | nil => exact (Option.some.inj h).symm
  | cons i path ih =>
    obtain ⟨child, hchild, h⟩ := Option.bind_eq_some_iff.mp h
    exact modify_eq_self hchild (ih h)

end Json

end Stepwise
