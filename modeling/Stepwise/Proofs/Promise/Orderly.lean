import Stepwise.Proofs.State.Apart
/-!
Order among promises and tasks: no promise has another one as its value, and reactions are the only microtasks there
are. Every operation keeps it that is not asked to settle a promise with another one.
-/

namespace Stepwise

/-- A value that is no promise, with which a promise can be settled for good. -/
def Value.Final (v : Value) : Prop := ∀ q, v ≠ .promise q

namespace State

/-- Promises have final values, and reactions wait with such values in the queue of microtasks only. -/
structure Orderly (s : State) : Prop where
  values : ∀ q w, s.value? q = some w → w.Final
  microtasks : ∀ t ∈ s.loop.microtasks, ∃ r w, t.job = .react r w ∧ w.Final
  macrotasks : ∀ t ∈ s.loop.macrotasks, ∀ r w, t.job ≠ .react r w

theorem Orderly.of_subset {s t : State} (h : s.Orderly) (hpromises : t.promises = s.promises)
    (hmicrotasks : t.loop.microtasks ⊆ s.loop.microtasks) (hmacrotasks : t.loop.macrotasks ⊆ s.loop.macrotasks) :
    t.Orderly := by
  refine ⟨fun q w hw ↦ h.values q w ?_, fun t ht ↦ h.microtasks t (hmicrotasks ht), fun t ht ↦
    h.macrotasks t (hmacrotasks ht)⟩
  unfold value? at hw ⊢
  rwa [hpromises] at hw

theorem Orderly.of_eq {s t : State} (h : s.Orderly) (hpromises : t.promises = s.promises) (hloop : t.loop = s.loop) :
    t.Orderly :=
  h.of_subset hpromises (hloop ▸ List.Subset.refl _) (hloop ▸ List.Subset.refl _)

end State

namespace Engine

open State

variable {α β : Type} {x : Engine α} {A : α → Prop} {B : β → Prop} {v : Value}

/-- An operation that keeps the order, with a condition on its result. -/
def Tidy (x : Engine α) (A : α → Prop) : Prop :=
  ∀ s, s.Orderly → (after (x s)).Orderly ∧ ∀ a t, x s = .ok a t → A a

namespace Tidy

theorem pure {a : α} (ha : A a) : Tidy (Pure.pure a) A := by
  refine fun s hs ↦ ⟨hs, fun b t h ↦ ?_⟩
  cases h
  exact ha

theorem bind {f : α → Engine β} (h : Tidy x A) (hf : ∀ a, A a → Tidy (f a) B) : Tidy (x >>= f) B := by
  intro s hs
  obtain ⟨ht, hA⟩ := h s hs
  rw [bind_apply]
  cases hx : x s with
  | error e t =>
    rw [hx] at ht
    refine ⟨ht, fun b t' h ↦ ?_⟩
    cases h
  | ok a t =>
    rw [hx] at ht
    exact hf a (hA a t hx) t ht

theorem seq {f : α → Engine β} (h : Tidy x unit) (hf : ∀ a, Tidy (f a) B) : Tidy (x >>= f) B := h.bind fun a _ ↦ hf a

theorem of_apart (h : ∀ s : State, s.Apart (after (x s))) : Tidy x unit := fun s hs ↦
  ⟨hs.of_eq (h s).promises (h s).loop, fun _ _ _ ↦ trivial⟩

end Tidy

end Engine

end Stepwise
