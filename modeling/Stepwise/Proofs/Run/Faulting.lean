import Stepwise.Proofs.Run.Chronicle
import Stepwise.Proofs.Run.Congruence
import Stepwise.Proofs.RunToCompletion
/-!
Faults on their way out. Nothing takes a fault: whatever was being evaluated closes its calls and scopes, and the task
in progress is the current one no more, but nothing else happens between the place of a fault and the end of a run.
-/

namespace Stepwise

/-- A machine with every call, every scope but the global one and the current task closed. -/
def Machine.unwound (m : Machine Journal) : Machine Journal :=
  { m with state := { m.state with
    frames := []
    chain := initial.state.chain
    loop := { m.state.loop with current := none } } }

/-- Where an activity ends in a fault, that is one that meets a condition. -/
def FaultsOnly {α : Type} (P : Fault → Machine Journal → Prop) (r : EStateM.Result Stop (Machine Journal) α) : Prop :=
  ∀ f n, r = .error (.fault f) n → P f n

open Classical in
/-- An activity the faults of which that do not meet a condition are replaced by what another one comes to. -/
noncomputable def Eval.sift {α : Type} (P : Fault → Machine Journal → Prop) (x y : Eval α) : Eval α := fun m ↦
  if FaultsOnly P (x m) then x m else y m

/-- The evaluator of a depth of which every form, at whatever depth below, is sifted like that. -/
noncomputable def Evaluator.sifted (P : Fault → Machine Journal → Prop) (other : Evaluator) (settings : Settings) :
    Nat → Evaluator
  | 0 => exhausted settings.names
  | n + 1 =>
    let self := (sifted P other settings n).next settings
    { names := self.names
      expr := fun e ↦ .sift P (self.expr e) (other.expr e)
      stmt := fun x ↦ .sift P (self.stmt x) (other.stmt x)
      loop := fun r c u x ↦ .sift P (self.loop r c u x) (other.loop r c u x)
      call := fun f vs line name ↦ .sift P (self.call f vs line name) (other.call f vs line name) }

/-- One activity comes to the same as another one except where that ends in one of certain faults. -/
def Eval.Spares (Q : Fault → Machine Journal → Prop) {α : Type} (x y : Eval α) : Prop :=
  ∀ m, y m = x m ∨ ∃ f n, x m = .error (.fault f) n ∧ Q f n

/-- A condition on faults that closing something does not change, not even when that fails. -/
structure Lasts (Q : Fault → Machine Journal → Prop) : Prop where
  closes : ∀ {f m n}, Q f m → n.unwound = m.unwound → Q f n
  fails : ∀ {f m n}, Q f m → n.unwound = m.unwound → Q .popOfGlobalScope n

namespace Eval.Spares

variable {P Q : Fault → Machine Journal → Prop} {α : Type}

/-- However a closing operation ends, it leaves a machine that unwinds to the same one. -/
theorem unwound_closed {close : Engine Unit} (h : Engine.Closes close) (m : Machine Journal) :
    (after (Activity.ofEngine close m)).unwound = m.unwound := by
  obtain ⟨frames, chain, current, hleaves⟩ := h.leaves m.state
  unfold Activity.ofEngine
  cases hr : close m.state with
  | ok _ s =>
    rw [hr] at hleaves
    subst hleaves
    rfl
  | error f s =>
    rw [hr] at hleaves
    subst hleaves
    rfl

theorem congruence (hQ : Lasts Q) : Congruence (Spares Q) where
  refl _ _ := .inl rfl
  bind {α β x y f g} hxy hfg := by
    intro m
    rw [bind_apply, bind_apply]
    obtain h | ⟨fault, n, h, hfault⟩ := hxy m
    · rw [h]
      cases x m with
      | ok a n => exact hfg a n
      | error stop n => exact .inl rfl
    · rw [h]
      exact .inr ⟨fault, n, rfl, hfault⟩
  catchReturn {x y} hxy := by
    intro m
    unfold Eval.catchReturn
    obtain h | ⟨fault, n, h, hfault⟩ := hxy m
    · rw [h]
      exact .inl rfl
    · rw [h]
      exact .inr ⟨fault, n, rfl, hfault⟩
  closing {α x y close} hclose hxy := by
    intro m
    unfold Activity.closing
    obtain h | ⟨fault, n, h, hfault⟩ := hxy m
    · rw [h]
      exact .inl rfl
    · have hunwound := unwound_closed hclose n
      rw [h]
      dsimp only
      cases hr : Activity.ofEngine close n with
      | ok _ n' =>
        rw [hr] at hunwound
        exact .inr ⟨fault, n', rfl, hQ.closes hfault hunwound⟩
      | error stop n' =>
        rw [hr] at hunwound
        obtain ⟨f, rfl⟩ := Activity.exists_fault hr
        obtain rfl : f = .popOfGlobalScope := by
          unfold Activity.ofEngine at hr
          cases hs : close n.state with
          | ok _ s => rw [hs] at hr; cases hr
          | error f' s =>
            rw [hs] at hr
            cases hr
            exact hclose.fails _ _ _ hs
        exact .inr ⟨_, n', rfl, hQ.fails hfault hunwound⟩

theorem sift {x y : Eval α} (hPQ : ∀ f n, ¬P f n → Q f n) (h : Spares Q x y) (other : Eval α) :
    Spares Q x (.sift P y other) := by
  intro m
  unfold Eval.sift
  split
  next => exact h m
  next hfaults =>
    -- what was sifted out is a fault of one side, and so of the other one
    obtain ⟨f, n, hy, hP⟩ : ∃ f n, y m = .error (.fault f) n ∧ ¬P f n := by
      unfold FaultsOnly at hfaults
      push Not at hfaults
      exact hfaults
    obtain hxy | hfault := h m
    · exact .inr ⟨f, n, hxy ▸ hy, hPQ f n hP⟩
    · exact .inr hfault

theorem pairs_sifted (hQ : Lasts Q) (hPQ : ∀ f n, ¬P f n → Q f n) (other : Evaluator) (settings : Settings)
    (depth : Nat) :
    Evaluator.Pairs (Spares Q) (Evaluator.ofDepth settings depth) (Evaluator.sifted P other settings depth) := by
  have hcongruence := congruence hQ
  induction depth with
  | zero =>
    exact ⟨rfl, fun _ ↦ hcongruence.refl _, fun _ ↦ hcongruence.refl _, fun _ _ _ _ ↦ hcongruence.refl _,
      fun _ _ _ _ ↦ hcongruence.refl _⟩
  | succ n ih =>
    have hnext := ih.next hcongruence settings
    rw [Evaluator.ofDepth_succ]
    exact ⟨hnext.names, fun e ↦ (hnext.expr e).sift hPQ _, fun x ↦ (hnext.stmt x).sift hPQ _,
      fun r c u x ↦ (hnext.loop r c u x).sift hPQ _, fun f vs line name ↦ (hnext.call f vs line name).sift hPQ _⟩

end Eval.Spares

namespace Activity

variable {execute : Task → Eval Unit} {m n : Machine Journal}

theorem current_plain (execute : Task → Eval Unit) (k : Nat) (hm : m.state.loop.current = none) :
    (after (plain execute k m)).state.loop.current = none := by
  induction k generalizing m with
  | zero => exact hm
  | succ k ih =>
    cases hnext : m.state.loop.next? with
    | none =>
      rw [plain_succ_of_none hnext]
      exact hm
    | some taken =>
      rw [plain_succ_of_some hnext, bind_apply, runTask_apply]
      cases execute taken.1 (running (m.withLoop taken.2) taken.1) with
      | ok _ n => exact ih rfl
      | error stop n => rfl

/-- Where the plain schedule stops, a number of tasks have been completed and one more was taken from its queue. -/
theorem exists_of_plain_error (he : ∀ task, Eval.Conducts Machine.Defers (execute task)) {k : Nat} {stop : Stop}
    (h : plain execute k m = .error stop n) : ∃ j l task rest n', plain execute j m = .ok () l ∧
      l.state.loop.executed = m.state.loop.executed + j ∧ l.state.loop.next? = some (task, rest) ∧
      execute task (running (l.withLoop rest) task) = .error stop n' ∧
      n = n'.withLoop { n'.state.loop with current := none } := by
  induction k generalizing m with
  | zero => cases h
  | succ k ih =>
    cases hnext : m.state.loop.next? with
    | none =>
      rw [plain_succ_of_none hnext] at h
      cases h
    | some taken =>
      obtain ⟨task, rest⟩ := taken
      rw [plain_succ_of_some hnext, bind_apply, runTask_apply] at h
      cases hr : execute task (running (m.withLoop rest) task) with
      | error stop' n' =>
        rw [hr] at h
        cases h
        exact ⟨0, m, task, rest, n', rfl, rfl, hnext, hr, rfl⟩
      | ok _ n' =>
        rw [hr] at h
        obtain ⟨j, l, other, rest', n'', hj, hexecuted, hl, hstop, hn⟩ := ih h
        -- the first of the completed tasks counts as one, and the work that it did as none
        have hsame : n'.state.loop.executed = m.state.loop.executed := by
          have hloop := (he task (running (m.withLoop rest) task)).loop.executed
          rw [hr] at hloop
          exact hloop.trans (EventLoop.takes_of_next? hnext).executed
        refine ⟨j + 1, l, other, rest', n'', ?_, ?_, hl, hstop, hn⟩
        · rw [plain_succ_of_some hnext, bind_apply, runTask_apply, hr]
          exact hj
        · change _ = n'.state.loop.executed + 1 + j at hexecuted
          omega

end Activity

open Activity Evaluator

/-- The ends that a run may come to: at the top level, in a task behind it, or when the tasks are through. -/
inductive Ending (settings : Settings) (depth : Nat) (program : Program) :
    EStateM.Result Stop (Machine Journal) Unit → Prop
  | top {stop : Stop} {m : Machine Journal} :
      (ofDepth settings depth).topLevel program .initial = .error stop m → Ending settings depth program (.error stop m)
  | tasks {start m : Machine Journal} {count : Nat} {stop : Stop} :
      (ofDepth settings depth).topLevel program .initial = .ok () start →
      plain ((ofDepth settings depth).task settings) count start = .error stop m →
      Ending settings depth program (.error stop m)
  | done {start n : Machine Journal} {count : Nat} (truncated : Bool) (captured : List Nat) :
      (ofDepth settings depth).topLevel program .initial = .ok () start →
      plain ((ofDepth settings depth).task settings) count start = .ok () n →
      Ending settings depth program (.ok () { n with state := { n.state with
        loop := { n.state.loop with truncated }, captured } })

theorem ending_run (settings : Settings) (depth : Nat) (program : Program) :
    Ending settings depth program (settings.run depth program) := by
  obtain ⟨count, hcount⟩ := exists_oneByOne settings depth program
  rw [hcount, bind_apply]
  cases htop : (ofDepth settings depth).topLevel program .initial with
  | error stop m => exact .top htop
  | ok _ start =>
    dsimp only
    rw [bind_apply]
    cases hplain : plain ((ofDepth settings depth).task settings) count start with
    | error stop m => exact .tasks htop hplain
    | ok _ n =>
      obtain ⟨captured, hfinished⟩ := exists_finished settings n
      dsimp only
      rw [hfinished]
      exact .done _ _ htop hplain

section Run

variable {settings : Settings} (hs : settings.names = .ofScopes) (depth : Nat) (program : Program)
include hs

theorem current_run : (after (settings.run depth program)).state.loop.current = none := by
  have htop := (conducts_topLevel hs depth program .initial).loop.current
  generalize hr : settings.run depth program = r
  cases hr ▸ ending_run settings depth program with
  | top h =>
    rw [h] at htop
    exact htop
  | @tasks start m count stop h h' =>
    rw [h] at htop
    have hm := current_plain ((ofDepth settings depth).task settings) count (m := start) htop
    rw [h'] at hm
    exact hm
  | @done start n count truncated captured h h' =>
    rw [h] at htop
    have hn := current_plain ((ofDepth settings depth).task settings) count (m := start) htop
    rw [h'] at hn
    exact hn

open Correspondence.Stacking in
theorem kept_run : Kept (fun _ _ ↦ True) (fun _ _ ↦ True) .task .initial (settings.run depth program) :=
  kept Machine.reaches_initial.grounded fun hp ↦
    ((soundRun habitRun_true hs).toSound.parts depth).program (soundRun habitRun_true hs) program hp rfl

/-- Of a run all calls and scopes are closed in the end, and no task is the current one. -/
theorem unwound_run : (after (settings.run depth program)).unwound = after (settings.run depth program) := by
  have hkept := kept_run hs depth program
  have hframes : (after (settings.run depth program)).state.frames = [] := hkept.stays.frames (by decide)
  have hchain : (after (settings.run depth program)).state.chain = Machine.initial.state.chain :=
    hkept.stays.chain (by decide)
  have hcurrent := current_run hs depth program
  unfold Machine.unwound
  rw [← hframes, ← hchain, ← hcurrent]

/-- Faults that do not end a run with a machine that they unwind to do not happen in it. -/
theorem sifted_eq_run (other : Evaluator) :
    (sifted (fun f m ↦ settings.run depth program = .error (.fault f) m.unwound) other settings depth).program
      settings program .initial = settings.run depth program := by
  let Ends (f : Fault) (m : Machine Journal) : Prop := ∃ g n, settings.run depth program = .error (.fault g) n ∧
    (g = f ∨ g = .popOfGlobalScope) ∧ n.unwound = m.unwound
  have hlasts : Lasts (fun f m ↦ ¬Ends f m) := by
    constructor
    · rintro f m n hm hunwound ⟨g, n', hrun, hg, hn'⟩
      exact hm ⟨g, n', hrun, hg, hn'.trans hunwound⟩
    · rintro f m n hm hunwound ⟨g, n', hrun, hg, hn'⟩
      exact hm ⟨g, n', hrun, .inr (hg.elim id id), hn'.trans hunwound⟩
  have hends (f : Fault) (m : Machine Journal) (h : ¬settings.run depth program = .error (.fault f) m.unwound) :
      ¬Ends f m := by
    rintro ⟨g, n, hrun, hg, hn⟩
    have hunwound := unwound_run hs depth program
    rw [hrun] at hunwound
    rcases hg with rfl | rfl
    · exact h (by rw [hrun, ← hn, show n.unwound = n from hunwound])
    · exact (kept_run hs depth program).raises n hrun
  have hpairs := Eval.Spares.pairs_sifted hlasts hends other settings depth
  obtain h | ⟨f, n, hrun, hnot⟩ := hpairs.program (Eval.Spares.congruence hlasts) settings program .initial
  · exact h
  · exact absurd ⟨f, n, hrun, .inl rfl, rfl⟩ hnot

end Run

end Stepwise
