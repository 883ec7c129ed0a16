import Stepwise.Proofs.Value.Unfolding
import Stepwise.Proofs.Json.Style
/-!
What is stored is rendered as the text of its unfolding, unless a path of references from it comes to some address twice. An
address that is met again on another path is no such address: sharing alone does not make a rendering circular.
-/

namespace Stepwise

theorem Json.compact_ne_circular (j : Json) : j.compact false ≠ "[Circular Object]" := by
  intro htext
  obtain ⟨rest, hrest⟩ : ∃ rest, Text.ofString "[Circular Object]" = CodePoint.ofChar '[' :: CodePoint.ofChar 'C' :: rest :=
    ⟨_, rfl⟩
  obtain ⟨p, t, hp, hopens⟩ := (Form.compact false).exists_write_eq_cons 0 j
  rw [hrest] at htext
  obtain ⟨rfl, -⟩ := List.cons.inj (hp.symm.trans htext)
  obtain ⟨items, rfl⟩ := exists_array_of_opens hopens
  have hinside := (List.cons.inj (((Form.compact false).array 0 items).symm.trans htext)).2
  cases items with
  | nil => exact absurd (List.cons.inj hinside).1 (by decide)
  | cons item items =>
    obtain ⟨p, t, hp, hopens⟩ := (Form.compact false).exists_write_eq_cons 1 item
    rw [List.map_cons, block_cons, hp] at hinside
    obtain ⟨rfl, -⟩ := List.cons.inj hinside
    cases item with
    | string t => exact absurd hopens (by rw [Opens]; decide)
    | array items => exact absurd hopens (by rw [Opens]; decide)
    | object members => exact absurd hopens (by rw [Opens]; decide)
    | _ => exact absurd hopens (by rw [Opens, isWordPoint_iff]; decide)

/-- Rendering comes to an end. It finds a circle exactly if there is one, and otherwise writes the one unfolding. -/
theorem Value.circular_iff_revisits (heap : Heap) (a : Address) :
    (∀ beyond, (renderBy heap)^[heap.size + 2] beyond [] (object a) = (object a).toJson? heap) ∧
    ((object a).structureText heap = "[Circular Object]" ↔ heap.Revisits a) ∧
    (heap.Revisits a ∨ ∃ json, (∀ json', Unfolds heap (object a) json' ↔ json' = json) ∧
      (object a).structureText heap = json.compact false) := by
  refine ⟨fun beyond ↦ iterate_renderBy beyond _, ?_⟩
  cases hjson : (object a).toJson? heap with
  | none =>
    have hcircular : (object a).structureText heap = "[Circular Object]" := by rw [structureText, hjson]
    exact ⟨iff_of_true hcircular (toJson?_object_eq_none_iff.mp hjson), .inl (toJson?_object_eq_none_iff.mp hjson)⟩
  | some json =>
    have htext : (object a).structureText heap = json.compact false := by rw [structureText, hjson]
    have hunfolds := unfolds_of_toJson? hjson
    have hrevisits : ¬ heap.Revisits a := by
      rw [← toJson?_object_eq_none_iff, hjson]
      exact Option.some_ne_none json
    refine ⟨iff_of_false (htext ▸ json.compact_ne_circular) hrevisits, .inr ⟨json, fun json' ↦ ?_, htext⟩⟩
    exact ⟨fun h ↦ h.unique hunfolds, fun h ↦ h ▸ hunfolds⟩

/-- An object in two places of an array is written twice. -/
example : (Value.object (.array 1)).structureText
    ⟨[(.array 1, { isArray := true, elements := [.object (.object 2), .object (.object 2)] }),
      (.object 2, { isArray := false })]⟩ =
      "[\x7b\x7d,\x7b\x7d]" := by decide

end Stepwise
