import Stepwise.Proofs.Run.Chronicle
/-!
Recorded states grow. Whoever steps through a run finds what was there at one step at every later one and at the end.
-/

namespace Stepwise

/-- Steps numbered from one on, at each of which the state has grown since all steps before, as the last state has
since all of them. -/
structure Chronicle (steps : List Step) (final : State) : Prop where
  ordinals : steps.map Step.ordinal = List.range' 1 steps.length
  marked : ∀ step ∈ steps, step.snapshot.step = step.ordinal
  grows : steps.Pairwise fun step later ↦ step.snapshot.Grows later.snapshot
  final : ∀ step ∈ steps, step.snapshot.Grows final

namespace Chronicle

variable {steps : List Step} {s t : State}

theorem nil (s : State) : Chronicle [] s := ⟨rfl, List.forall_mem_nil _, .nil, List.forall_mem_nil _⟩

theorem edit {new : List Bearer} (h : Chronicle steps s) (hedit : s.Edit new t) : Chronicle steps t :=
  { h with final := fun step hstep ↦ (h.final step hstep).trans hedit.grows }

theorem record (h : Chronicle steps s) (line column : Int) (description : Text) :
    Chronicle (steps ++ [Step.behind steps line column description s]) s := by
  -- the mark of the step in a snapshot has no part in growth
  have hmark (u : State) (hu : u.Grows s) : u.Grows (Step.behind steps line column description s).snapshot :=
    ⟨hu.console, hu.declared, hu.heap, hu.promises⟩
  have hself : (Step.behind steps line column description s).snapshot.Grows s :=
    ⟨List.prefix_refl _, List.prefix_refl _, .refl _, .refl .refl _⟩
  refine ⟨?_, ?_, List.pairwise_append.mpr ⟨h.grows, List.pairwise_singleton _ _, ?_⟩, ?_⟩
  · rw [List.map_append, h.ordinals, List.length_append, List.length_singleton, List.range'_concat, Nat.one_mul,
      Nat.add_comm 1]
    rfl
  · exact List.forall_mem_append.mpr ⟨h.marked, List.forall_mem_singleton.mpr rfl⟩
  · intro step hstep later hlater
    obtain rfl := List.mem_singleton.mp hlater
    exact hmark _ (h.final step hstep)
  · exact List.forall_mem_append.mpr ⟨h.final, List.forall_mem_singleton.mpr hself⟩

end Chronicle

theorem Machine.Unfolds.chronicle {l m : Machine Journal} {handed : List Bearer} (h : l.Unfolds handed m)
    (hl : Chronicle l.journal.steps l.state) : Chronicle m.journal.steps m.state := by
  induction h with
  | refl => exact hl
  | edit _ hedit ih => exact ih.edit hedit
  | record line column description _ ih => exact ih.record line column description
  | report problem _ ih => exact ih

theorem Machine.Reaches.chronicle {m : Machine Journal} (h : initial.Reaches m) :
    Chronicle m.journal.steps m.state := by
  obtain ⟨handed, hrow⟩ := h.leads
  exact hrow.chronicle (.nil initial.state)

/-- However a run ends, its snapshots and the state that it leaves have grown one from the other; and so have those of
its trace, the console of which a fault may have closed. -/
theorem recorded_states_grow (ceiling : Int) (prunes : Bool) (depth : Nat) (program : Program) :
    let settings : Settings := { ceiling, prunes }
    Chronicle (after (settings.run depth program)).journal.steps (after (settings.run depth program)).state ∧
    ∀ t ∈ Trace.ofProgram? settings depth program, ∃ s, t.finalState = some s ∧ Chronicle t.steps s := by
  intro settings
  have hs : settings.names = .ofScopes := rfl
  have hreaches := (Correspondence.Unfolding.outcome_run hs depth program).reaches
  refine ⟨hreaches.chronicle, fun t ht ↦ ?_⟩
  obtain ⟨n, hshows, hreaches, -⟩ := Trace.exists_shows hs ht
  exact ⟨n.state, hshows.finalState, hshows.steps ▸ hreaches.chronicle⟩

end Stepwise
