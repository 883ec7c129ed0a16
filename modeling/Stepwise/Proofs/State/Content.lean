import Stepwise.Proofs.State.Growth
/-!
What the heap holds, references aside. Reading looks at nothing else.
-/

namespace Stepwise

/-- A cell without its count of references. -/
def Cell.bare (cell : Cell) : Cell := { cell with references := 0 }

namespace Heap

variable {heap heap' : Heap} {address : Address} {cell : Cell}

/-- What is stored at an address, references aside. -/
def content? (heap : Heap) (address : Address) : Option Cell := (heap.get? address).map Cell.bare

theorem content?_of_get? (h : heap.get? address = some cell) : heap.content? address = some cell.bare := by
  rw [content?, h, Option.map_some]

theorem getProperty_eq_content? (heap : Heap) (address : Address) (key : Text) :
    heap.getProperty (.object address) key = (heap.content? address).elim (.ok .undefined) (·.read key) := by
  rw [getProperty, content?]
  cases heap.get? address <;> rfl

theorem getProperty_of_content? (h : heap.content? address = some cell) (key : Text) :
    heap.getProperty (.object address) key = cell.read key := by
  rw [getProperty_eq_content?, h, Option.elim_some]

theorem getProperty_congr (h : heap.content? address = heap'.content? address) :
    heap.getProperty (.object address) = heap'.getProperty (.object address) := by
  funext key
  rw [getProperty_eq_content?, getProperty_eq_content?, h]

theorem content?_update (heap : Heap) (address a : Address) (f : Cell → Cell) :
    (heap.update address f).content? a =
      if a = address then (heap.get? address).map (Cell.bare ∘ f) else heap.content? a := by
  rw [content?, update, Dict.get?_modify]
  split
  · rw [Option.map_map]
  · rfl

theorem content?_update_of_bare {f : Cell → Cell} (hf : ∀ cell, (f cell).bare = cell.bare) (address a : Address) :
    (heap.update address f).content? a = heap.content? a := by
  have hcomp : Cell.bare ∘ f = Cell.bare := funext hf
  rw [content?_update, hcomp]
  split
  next h => rw [h, content?]
  next => rfl

theorem content?_retain (heap : Heap) (v : Value) (a : Address) : (heap.retain v).content? a = heap.content? a := by
  cases v with
  | object address =>
    exact content?_update_of_bare (f := fun cell ↦ { cell with references := cell.references + 1 }) (fun _ ↦ rfl) address a
  | _ => rfl

theorem content?_release (heap : Heap) (v : Value) (a : Address) : (heap.release v).content? a = heap.content? a := by
  cases v with
  | object address =>
    exact content?_update_of_bare (f := fun cell ↦ { cell with references := cell.references - 1 }) (fun _ ↦ rfl) address a
  | _ => rfl

/-- The same is stored in the same order; references may be counted differently. -/
structure Recounts (heap heap' : Heap) : Prop where
  keys : heap'.keys = heap.keys
  content : ∀ address, heap'.content? address = heap.content? address

namespace Recounts

theorem refl (heap : Heap) : heap.Recounts heap := ⟨rfl, fun _ ↦ rfl⟩

theorem retain (h : heap.Recounts heap') (v : Value) : heap.Recounts (heap'.retain v) :=
  ⟨(heap'.keys_retain v).trans h.keys, fun a ↦ (heap'.content?_retain v a).trans (h.content a)⟩

theorem release (h : heap.Recounts heap') (v : Value) : heap.Recounts (heap'.release v) :=
  ⟨(heap'.keys_release v).trans h.keys, fun a ↦ (heap'.content?_release v a).trans (h.content a)⟩

end Recounts

end Heap

end Stepwise
