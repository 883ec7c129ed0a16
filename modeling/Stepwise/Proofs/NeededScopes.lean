import Stepwise.Proofs.State.Pruning
/-!
Forgetting captured scopes keeps exactly those that are needed. Which ones are needed is said here as the least set
of scopes that holds the open ones and those of the calls in progress, and whatever was captured by a function that is
held somewhere or bound in a captured scope of the set.
-/

namespace Stepwise

/-- The values that a job will use: what it calls, what it calls it with, what was awaited and by which handler. -/
inductive Job.Uses : Job → Value → Prop
  | callback {f : Function} {arguments : List Value} : Uses (.call f arguments) (.function f)
  | argument {f : Function} {arguments : List Value} {v : Value} : v ∈ arguments → Uses (.call f arguments) v
  | awaited {reaction : Reaction} {v : Value} : Uses (.react reaction v) v
  | handler {f : Function} {derived : Address} {v : Value} :
    Uses (.react (.handle (some f) derived) v) (.function f)

namespace State

/-- A task in a queue, or the one that is running. -/
inductive Pends (s : State) (task : Task) : Prop
  | microtask : task ∈ s.loop.microtasks → Pends s task
  | macrotask : task ∈ s.loop.macrotasks → Pends s task
  | current : s.loop.current = some task → Pends s task

/-- A value that is kept outside of the captured scopes. -/
inductive Holds (s : State) : Value → Prop
  | opened {id : Nat} {scope : Scope} {v : Value} :
    id ∈ s.chain → s.scope? id = some scope → v ∈ scope.bindings.values → Holds s v
  | argument {frame : Frame} {v : Value} : frame ∈ s.frames → v ∈ frame.arguments → Holds s v
  | parameter {frame : Frame} {v : Value} : frame ∈ s.frames → v ∈ frame.locals.values → Holds s v
  | field {cell : Cell} {v : Value} : cell ∈ s.heap.values → v ∈ cell.fields.values → Holds s v
  | element {cell : Cell} {v : Value} : cell ∈ s.heap.values → v ∈ cell.elements → Holds s v
  | settled {p : Promise} {v : Value} : p ∈ s.promises.values → p.value? = some v → Holds s v
  | slot {p : Promise} {v : Value} : p ∈ s.promises.values → v ∈ p.slots → Holds s v
  | handler {p : Promise} {f : Function} {derived : Address} :
    p ∈ s.promises.values → .handle (some f) derived ∈ p.reactions → Holds s (.function f)
  | task {task : Task} {v : Value} : s.Pends task → task.job.Uses v → Holds s v

/-- The least set of scopes that may still be looked into. -/
inductive Needs (s : State) : Nat → Prop
  | opened {id : Nat} : id ∈ s.chain → Needs s id
  | called {frame : Frame} {id : Nat} : frame ∈ s.frames → id ∈ frame.closure → Needs s id
  | held {f : Function} {id : Nat} : s.Holds (.function f) → id ∈ f.closure → Needs s id
  | bound {i id : Nat} {scope : Scope} {f : Function} : Needs s i → i ∈ s.captured → s.scope? i = some scope →
    .function f ∈ scope.bindings.values → id ∈ f.closure → Needs s id

variable {s : State} {id : Nat} {v : Value}

theorem mem_tasks_iff {task : Task} : task ∈ s.tasks ↔ s.Pends task := by
  simp only [tasks, List.mem_append, Option.mem_toList]
  constructor
  · rintro ((h | h) | h)
    · exact .microtask h
    · exact .macrotask h
    · exact .current h
  · intro h
    cases h with
    | microtask h => exact .inl (.inl h)
    | macrotask h => exact .inl (.inr h)
    | current h => exact .inr h

theorem mem_reaction_values {r : Reaction} :
    v ∈ r.values ↔ ∃ f derived, r = .handle (some f) derived ∧ v = .function f := by
  cases r with
  | handle handler derived => cases handler <;> simp [Reaction.values, Reaction.handler?]
  | _ => simp [Reaction.values, Reaction.handler?]

theorem mem_job_values {job : Job} : v ∈ job.values ↔ job.Uses v := by
  cases job with
  | call f arguments =>
    rw [Job.values, List.mem_cons]
    constructor
    · rintro (rfl | h)
      · exact .callback
      · exact .argument h
    · intro h
      cases h with
      | callback => exact .inl rfl
      | argument h => exact .inr h
  | fetched promise url => exact ⟨fun h ↦ absurd h List.not_mem_nil, fun h ↦ by cases h⟩
  | react r w =>
    rw [Job.values, List.mem_cons, mem_reaction_values]
    constructor
    · rintro (rfl | ⟨f, derived, rfl, rfl⟩)
      · exact .awaited
      · exact .handler
    · intro h
      cases h with
      | awaited => exact .inl rfl
      | handler => exact .inr ⟨_, _, rfl, rfl⟩

theorem Holds.mem_roots (h : s.Holds v) : v ∈ s.roots := by
  cases h with
  | opened hid hs hv => exact mem_roots_of_chain hid hs hv
  | argument hframe hv => exact mem_roots_of_frame hframe (List.mem_append_left _ hv)
  | parameter hframe hv => exact mem_roots_of_frame hframe (List.mem_append_right _ hv)
  | field hcell hv => exact mem_roots_of_heap hcell (List.mem_append_left _ hv)
  | element hcell hv => exact mem_roots_of_heap hcell (List.mem_append_right _ hv)
  | settled hp hv =>
    exact mem_roots_of_promise hp (List.mem_append_left _ (List.mem_append_left _ (Option.mem_toList.mpr hv)))
  | slot hp hv => exact mem_roots_of_promise hp (List.mem_append_left _ (List.mem_append_right _ hv))
  | handler hp hr =>
    have hv := List.mem_flatMap.mpr ⟨_, hr, mem_reaction_values.mpr ⟨_, _, rfl, rfl⟩⟩
    exact mem_roots_of_promise hp (List.mem_append_right _ hv)
  | task ht hv => exact mem_roots_of_task (mem_tasks_iff.mpr ht) (mem_job_values.mpr hv)

theorem holds_of_mem_roots (h : v ∈ s.roots) : s.Holds v := by
  simp only [roots, List.mem_append, List.mem_flatMap] at h
  obtain (((⟨scope, hscope, hv⟩ | ⟨frame, hframe, hv⟩) | ⟨cell, hcell, hv⟩) | ⟨p, hp, hv⟩) | ⟨task, ht, hv⟩ := h
  · obtain ⟨id, hid, hs⟩ := List.mem_filterMap.mp hscope
    exact .opened hid hs hv
  · exact hv.elim (.argument hframe) (.parameter hframe)
  · exact hv.elim (.field hcell) (.element hcell)
  · obtain (hv | hv) | ⟨r, hr, hv⟩ := hv
    · exact .settled hp (Option.mem_toList.mp hv)
    · exact .slot hp hv
    · obtain ⟨f, derived, rfl, rfl⟩ := mem_reaction_values.mp hv
      exact .handler hp hr
  · exact .task (mem_tasks_iff.mp ht) (mem_job_values.mp hv)

/-- Where the search starts. -/
def seeds (s : State) : List Nat := s.chain ++ s.frames.flatMap (·.closure) ++ Value.closures s.roots

theorem needs_of_mem_seeds (h : id ∈ s.seeds) : s.Needs id := by
  rcases List.mem_append.mp h with h | h
  · rcases List.mem_append.mp h with h | h
    · exact .opened h
    · obtain ⟨frame, hframe, hid⟩ := List.mem_flatMap.mp h
      exact .called hframe hid
  · obtain ⟨f, hf, hid⟩ := mem_closures.mp h
    exact .held (holds_of_mem_roots hf) hid

theorem needs_of_mem_reach (n : Nat) {live : List Nat} (hlive : ∀ i ∈ live, s.Needs i) (h : id ∈ s.reach n live) :
    s.Needs id := by
  induction n generalizing live with
  | zero => exact hlive id h
  | succ n ih =>
    rw [reach_succ] at h
    -- a round adds only what a needed scope leads to, so the next one starts from needed scopes again
    refine ih (fun i hi ↦ ?_) h
    rcases List.mem_append.mp hi with hi | hi
    · exact hlive i hi
    · obtain ⟨j, hj, scope, hs, hjlive, f, hf, hif⟩ := mem_closuresIn.mp (mem_found.mp hi).1
      exact .bound (hlive j hjlive) hj hs hf hif

theorem Needs.mem_needed (h : s.Needs id) : id ∈ s.needed := by
  induction h with
  | opened h => exact subset_reach _ (List.mem_append_left _ (List.mem_append_left _ h))
  | called hframe h =>
    exact subset_reach _ (List.mem_append_left _ (List.mem_append_right _ (List.mem_flatMap.mpr ⟨_, hframe, h⟩)))
  | held hf h => exact mem_needed_of_root hf.mem_roots h
  | bound _ hi hs hf h ih => exact s.closuresIn_needed_subset (mem_closuresIn.mpr ⟨_, hi, _, hs, ih, _, hf, h⟩)

theorem mem_needed_iff : id ∈ s.needed ↔ s.Needs id :=
  ⟨needs_of_mem_reach _ fun _ ↦ needs_of_mem_seeds, Needs.mem_needed⟩

instance (s : State) : DecidablePred s.Needs := fun _ ↦ decidable_of_iff _ mem_needed_iff

theorem reach_add (n k : Nat) (live : List Nat) : s.reach (n + k) live = s.reach k (s.reach n live) := by
  induction n generalizing live with
  | zero => rw [Nat.zero_add, reach]
  | succ n ih => rw [Nat.succ_add_eq_add_succ, Nat.add_succ, reach_succ, reach_succ, ih]

/-- The search is over after as many rounds as it is given: more of them find nothing else. -/
theorem reach_seeds (n : Nat) : s.reach (s.captured.length + 1 + n) s.seeds = s.needed := by
  rw [reach_add]
  exact reach_eq_self n s.closuresIn_needed_subset

/-- What is needed stays so when captured scopes are forgotten of which none was. -/
theorem Needs.prune (h : s.Needs id) : s.prune.Needs id := by
  induction h with
  | opened h => exact .opened h
  | called hframe h => exact .called hframe h
  | held hf h => exact .held (holds_of_mem_roots hf.mem_roots) h
  | bound hneeds hi hs hf h ih =>
    exact .bound ih (List.mem_filter.mpr ⟨hi, decide_eq_true hneeds.mem_needed⟩) hs hf h

theorem prune_eq : s.prune = { s with captured := s.captured.filter (s.Needs ·) } := by
  have hkept : s.captured.filter (· ∈ s.needed) = s.captured.filter (s.Needs ·) :=
    List.filter_congr fun id _ ↦ decide_eq_decide.mpr mem_needed_iff
  rw [prune, hkept]

theorem prune_prune : s.prune.prune = s.prune := by
  have hkept : s.prune.captured.filter (s.prune.Needs ·) = s.prune.captured := by
    refine List.filter_eq_self.mpr fun id hid ↦ decide_eq_true ?_
    exact (mem_needed_iff.mp (of_decide_eq_true (List.mem_filter.mp hid).2)).prune
  rw [prune_eq (s := s.prune), hkept]

theorem filterMap_scope?_filter (p : Nat → Bool) (ids : List Nat) :
    (ids.filter p).filterMap s.scope? = (ids.filterMap s.scope?).filter (p ·.id) := by
  induction ids with
  | nil => rfl
  | cons i ids ih =>
    cases hs : s.scope? i with
    | none =>
      rw [List.filterMap_cons_none hs, ← ih]
      cases hp : p i with
      | false => rw [List.filter_cons_of_neg (by rw [hp]; decide)]
      | true => rw [List.filter_cons_of_pos hp, List.filterMap_cons_none hs]
    | some scope =>
      have hid := id_of_scope? hs
      rw [List.filterMap_cons_some hs]
      cases hp : p i with
      | false =>
        rw [List.filter_cons_of_neg (by rw [hp]; decide), List.filter_cons_of_neg (by rw [hid, hp]; decide), ih]
      | true =>
        rw [List.filter_cons_of_pos hp, List.filterMap_cons_some hs, List.filter_cons_of_pos (by rw [hid, hp]), ih]

theorem length_sub_prune : s.captured.length - s.prune.captured.length = s.captured.countP fun id ↦ ¬ s.Needs id := by
  have htotal := List.length_eq_countP_add_countP (s.Needs ·) (l := s.captured)
  have hkept : s.prune.captured.length = s.captured.countP (s.Needs ·) := by
    rw [prune_eq, List.countP_eq_length_filter]
  simp only [decide_eq_true_eq] at htotal
  omega

end State

open State in
/-- Forgetting keeps of the captured scopes those that are needed and nothing else, changes nothing else, and has
nothing left to do a second time. -/
theorem prune_keeps_needed (s : State) : ∃ t : State,
    Engine.prune s = .ok (s.captured.countP fun id ↦ ¬ s.Needs id) t ∧
    t = { s with captured := s.captured.filter fun id ↦ s.Needs id } ∧
    t.capturedScopes = s.capturedScopes.filter (fun scope ↦ s.Needs scope.id) ∧
    (∀ n, s.reach (s.captured.length + 1 + n) s.seeds = s.needed) ∧
    Engine.prune t = .ok 0 t := by
  have hcount (s : State) : Engine.prune s = .ok (s.captured.countP fun id ↦ ¬ s.Needs id) s.prune := by
    rw [← length_sub_prune]
    rfl
  -- what a second time finds is what was found before, since nothing that leads on was forgotten
  refine ⟨s.prune, hcount s, prune_eq, ?_, reach_seeds, ?_⟩
  · rw [prune_eq]
    exact filterMap_scope?_filter (fun id ↦ s.Needs id) s.captured
  · have hnone : s.prune.captured.length - s.prune.prune.captured.length = 0 := by rw [prune_prune, Nat.sub_self]
    rw [hcount, ← length_sub_prune, hnone, prune_prune]

end Stepwise
