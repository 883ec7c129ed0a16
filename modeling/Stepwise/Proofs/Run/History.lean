import Stepwise.Proofs.Promise.History
import Stepwise.Proofs.Promise.Orderly
import Stepwise.Proofs.StackDiscipline
/-!
Runs as histories. What the evaluation of a form does to promises is a row of operations, and a task that ends well is
a row of steps.
-/

namespace Stepwise

open History

/-- While certain handlers are called, a history leads from one state to another with certain events only. -/
def State.Comes (P : Event → Prop) (calls : List Address) (s t : State) : Prop :=
  ∀ events, ∃ new, (∀ e ∈ new, P e) ∧ Reaches ⟨s, calls, events⟩ ⟨t, calls, events ++ new⟩

namespace State.Comes

variable {P Q : Event → Prop} {calls : List Address} {s t u : State}

theorem of_reaches (h : ∀ events, Reaches ⟨s, calls, events⟩ ⟨t, calls, events⟩) : s.Comes P calls t := fun events ↦
  ⟨[], List.forall_mem_nil _, (List.append_nil events).symm ▸ h events⟩

theorem refl : s.Comes P calls s := of_reaches fun _ ↦ .refl

theorem trans (h : s.Comes P calls t) (h' : t.Comes P calls u) : s.Comes P calls u := by
  intro events
  obtain ⟨new, hnew, hreaches⟩ := h events
  obtain ⟨new', hnew', hreaches'⟩ := h' (events ++ new)
  refine ⟨new ++ new', List.forall_mem_append.mpr ⟨hnew, hnew'⟩, hreaches.trans ?_⟩
  rwa [← List.append_assoc]

theorem mono (h : s.Comes P calls t) (hPQ : ∀ e, P e → Q e) : s.Comes Q calls t := fun events ↦ by
  obtain ⟨new, hnew, hreaches⟩ := h events
  exact ⟨new, fun e he ↦ hPQ e (hnew e he), hreaches⟩

end State.Comes

theorem State.Apart.beside {s t : State} (h : s.Apart t) : s.Beside t where
  promises := h.promises
  queued := by
    unfold queued
    rw [h.loop]
  fetching := by
    unfold fetching
    rw [h.loop]
  lastId := h.lastId
  fresh := h.fresh

namespace Activity

variable {ω α : Type} {m n : Machine ω} {a : α}

end Activity

namespace Evaluator

open Activity Correspondence.Stacking

variable {settings : Settings} {depth : Nat} {m n : Machine Journal} {s : State}

end Evaluator

end Stepwise
