import Stepwise.Proofs.State.Lexical
/-!
Forgetting captured scopes outside of calls. What is kept is closed under the functions that are
bound in it, and so no scope is forgotten that a function which can still be called captured.
-/

namespace Stepwise

namespace State

variable {s : State} {id : Nat} {live : List Nat}

theorem mem_closures {vs : List Value} : id ∈ Value.closures vs ↔ ∃ f, .function f ∈ vs ∧ id ∈ f.closure := by
  unfold Value.closures
  rw [List.mem_flatMap]
  constructor
  · rintro ⟨v, hv, hid⟩
    cases v with
    | function f => exact ⟨f, hv, hid⟩
    | _ => cases hid
  · rintro ⟨f, hf, hid⟩
    exact ⟨.function f, hf, hid⟩

theorem mem_closuresIn : id ∈ s.closuresIn live ↔ ∃ i ∈ s.captured, ∃ scope, s.scope? i = some scope ∧
    i ∈ live ∧ ∃ f, .function f ∈ scope.bindings.values ∧ id ∈ f.closure := by
  unfold closuresIn capturedScopes
  rw [mem_closures]
  constructor
  · rintro ⟨f, hf, hid⟩
    obtain ⟨scope, hscope, hf⟩ := List.mem_flatMap.mp hf
    obtain ⟨hscope, hlive⟩ := List.mem_filter.mp hscope
    obtain ⟨i, hi, hs⟩ := List.mem_filterMap.mp hscope
    rw [id_of_scope? hs, decide_eq_true_eq] at hlive
    exact ⟨i, hi, scope, hs, hlive, f, hf, hid⟩
  · rintro ⟨i, hi, scope, hs, hlive, f, hf, hid⟩
    refine ⟨f, List.mem_flatMap.mpr ⟨scope, List.mem_filter.mpr ⟨List.mem_filterMap.mpr ⟨i, hi, hs⟩, ?_⟩, hf⟩, hid⟩
    rw [id_of_scope? hs]
    exact decide_eq_true hlive

/-- What the scopes found so far lead to and was not found itself. -/
def found (s : State) (live : List Nat) : List Nat := (s.closuresIn live).filter (· ∉ live)

theorem mem_found : id ∈ s.found live ↔ id ∈ s.closuresIn live ∧ id ∉ live := by
  simp [found]

theorem found_eq_nil : s.found live = [] ↔ s.closuresIn live ⊆ live := by
  rw [found, List.filter_eq_nil_iff]
  constructor
  · intro h id hid
    simpa using h id hid
  · intro h id hid
    simpa using h hid

theorem reach_eq_self (n : Nat) (h : s.closuresIn live ⊆ live) : s.reach n live = live := by
  cases n with
  | zero => rfl
  | succ n =>
    have hnone : (s.closuresIn live).filter (· ∉ live) = [] := found_eq_nil.mpr h
    rw [reach, hnone]

theorem reach_succ (n : Nat) : s.reach (n + 1) live = s.reach n (live ++ s.found live) := by
  rw [reach]
  split
  next hnone =>
    have hfound : s.found live = [] := hnone
    rw [hfound, List.append_nil, reach_eq_self n (found_eq_nil.mp hfound)]
  next => rfl

theorem subset_reach (n : Nat) : live ⊆ s.reach n live := by
  induction n generalizing live with
  | zero => exact fun _ h ↦ h
  | succ n ih =>
    rw [reach_succ]
    exact fun _ h ↦ ih (List.mem_append_left _ h)

/-- How many captured scopes were not found yet. -/
def unfound (s : State) (live : List Nat) : Nat := s.captured.countP (· ∉ live)

theorem countP_append_lt {captured found : List Nat} (hid : id ∈ captured) (hfound : id ∈ found)
    (hlive : id ∉ live) : captured.countP (· ∉ live ++ found) < captured.countP (· ∉ live) := by
  have hle (ids : List Nat) : ids.countP (· ∉ live ++ found) ≤ ids.countP (· ∉ live) :=
    List.countP_mono_left fun i _ hi ↦ by simp at hi ⊢; exact hi.1
  obtain ⟨before, after, rfl⟩ := List.append_of_mem hid
  have hnew : id ∈ live ++ found := List.mem_append_right live hfound
  rw [List.countP_append, List.countP_append, List.countP_cons_of_neg (by simp only [hnew]; decide),
    List.countP_cons_of_pos (by simp only [hlive]; decide)]
  have hbefore := hle before
  have hafter := hle after
  omega

theorem unfound_le (s : State) (live : List Nat) : s.unfound live ≤ s.captured.length :=
  List.countP_le_length

/-- Each round but the last finds a captured scope, and after as many rounds as there are to be found
nothing more is. -/
theorem closuresIn_reach_subset (n : Nat) (hn : s.unfound live < n) :
    s.closuresIn (s.reach n live) ⊆ s.reach n live := by
  induction n generalizing live with
  | zero => exact absurd hn (Nat.not_lt_zero _)
  | succ n ih =>
    rw [reach_succ]
    by_cases hcaptured : ∃ id ∈ s.captured, id ∈ s.found live
    · obtain ⟨id, hid, hfound⟩ := hcaptured
      have hlt := countP_append_lt hid hfound (mem_found.mp hfound).2
      refine ih ?_
      unfold unfound at hn ⊢
      omega
    · -- what was found leads nowhere, so that nothing else will be found
      have hclosed : s.closuresIn (live ++ s.found live) ⊆ live ++ s.found live := by
        intro id hid
        obtain ⟨i, hi, scope, hs, hlive, hf⟩ := mem_closuresIn.mp hid
        have hlive' : i ∈ live := (List.mem_append.mp hlive).resolve_right fun hfi ↦ hcaptured ⟨i, hi, hfi⟩
        have hold : id ∈ s.closuresIn live := mem_closuresIn.mpr ⟨i, hi, scope, hs, hlive', hf⟩
        by_cases hid' : id ∈ live
        · exact List.mem_append_left _ hid'
        · exact List.mem_append_right _ (mem_found.mpr ⟨hold, hid'⟩)
      rw [reach_eq_self n hclosed]
      exact hclosed

theorem closuresIn_needed_subset (s : State) : s.closuresIn s.needed ⊆ s.needed :=
  closuresIn_reach_subset _ (Nat.lt_succ_of_le (s.unfound_le _))

theorem mem_roots_of_chain {scope : Scope} {v : Value} (hid : id ∈ s.chain) (hs : s.scope? id = some scope)
    (hv : v ∈ scope.bindings.values) : v ∈ s.roots := by
  have hopen : scope ∈ s.openScopes := List.mem_filterMap.mpr ⟨id, hid, hs⟩
  simp only [roots, List.mem_append]
  exact .inl (.inl (.inl (.inl (List.mem_flatMap.mpr ⟨scope, hopen, hv⟩))))

theorem mem_roots_of_frame {frame : Frame} {v : Value} (hframe : frame ∈ s.frames) (hv : v ∈ frame.arguments ++ frame.locals.values) :
    v ∈ s.roots := by
  simp only [roots, List.mem_append]
  exact .inl (.inl (.inl (.inr (List.mem_flatMap.mpr ⟨frame, hframe, hv⟩))))

theorem mem_needed_of_root {f : Function} (hf : .function f ∈ s.roots) (hid : id ∈ f.closure) :
    id ∈ s.needed :=
  subset_reach _ (List.mem_append_right _ (mem_closures.mpr ⟨f, hf, hid⟩))

theorem mem_needed_of_bound {i : Nat} {scope : Scope} {f : Function} (hs : s.scope? i = some scope)
    (hi : i ∈ s.chain ∨ i ∈ s.captured ∧ i ∈ s.needed) (hf : .function f ∈ scope.bindings.values)
    (hid : id ∈ f.closure) : id ∈ s.needed := by
  rcases hi with hi | ⟨hc, hn⟩
  · exact mem_needed_of_root (mem_roots_of_chain hi hs hf) hid
  · exact s.closuresIn_needed_subset (mem_closuresIn.mpr ⟨i, hc, scope, hs, hn, f, hf, hid⟩)

/-- A function none of whose captured scopes is forgotten. -/
theorem Captures.prune {f : Function} (h : s.Captures f) (hf : ∀ id ∈ f.closure, id ∈ s.needed) :
    s.prune.Captures f := by
  refine ⟨h.lineage.mono (.of_scopes_eq rfl), fun id hid ↦ (h.kept id hid).imp_right fun hc ↦ ?_⟩
  exact List.mem_filter.mpr ⟨hc, decide_eq_true (hf id hid)⟩

theorem mem_roots_of_heap {cell : Cell} {v : Value} (hc : cell ∈ s.heap.values) (hv : v ∈ cell.held) :
    v ∈ s.roots := by
  simp only [roots, List.mem_append]
  exact .inl (.inl (.inr (List.mem_flatMap.mpr ⟨cell, hc, hv⟩)))

theorem mem_roots_of_promise {p : Promise} {v : Value} (hp : p ∈ s.promises.values) (hv : v ∈ p.held) :
    v ∈ s.roots := by
  simp only [roots, List.mem_append]
  exact .inl (.inr (List.mem_flatMap.mpr ⟨p, hp, hv⟩))

theorem mem_roots_of_task {task : Task} {v : Value} (ht : task ∈ s.tasks) (hv : v ∈ task.job.values) :
    v ∈ s.roots := by
  simp only [roots, List.mem_append]
  exact .inr (List.mem_flatMap.mpr ⟨task, ht, hv⟩)

theorem Lexical.prune (h : s.Lexical) (hf : s.frames = []) : s.prune.Lexical := by
  have hkeep {v : Value} (hr : v ∈ s.roots) (hv : v.Within s.Captures) : v.Within s.prune.Captures := by
    cases v with
    | function f => exact Captures.prune hv fun _ hid ↦ mem_needed_of_root hr hid
    | _ => trivial
  have hstacked : s.prune.Stacked s.prune.frames s.prune.chain :=
    h.stacked.mono (.of_scopes_eq rfl) (fun hne ↦ absurd hf hne) rfl
  refine ⟨h.fresh, h.root, h.global, hstacked, fun id scope hs hid v hv ↦ ?_,
    fun cell hc v hv ↦ hkeep (mem_roots_of_heap hc hv) (h.held.heap cell hc v hv),
    fun p hp v hv ↦ hkeep (mem_roots_of_promise hp hv) (h.held.promises p hp v hv),
    fun task ht v hv ↦ hkeep (mem_roots_of_task ht hv) (h.held.tasks task ht v hv)⟩
  have hid' : id ∈ s.chain ∨ id ∈ s.captured ∧ id ∈ s.needed := hid.imp_right fun hc ↦
    ⟨(List.mem_filter.mp hc).1, of_decide_eq_true (List.mem_filter.mp hc).2⟩
  have hc := h.bound id scope hs (hid'.imp_right And.left) v hv
  cases v with
  | function f => exact Captures.prune hc fun _ ↦ mem_needed_of_bound hs hid' hv
  | _ => trivial

end State

end Stepwise
