import Stepwise.Proofs.EventLoop.Plain
/-!
What a ceiling decides. Passes and budgets choose how far the plain schedule is followed and nothing
else: with higher ones a drain does the same and then goes on.
-/

namespace Stepwise.Activity

variable {ω α : Type} {execute : Task → Activity ω Unit} {m : Machine ω}

/-- The end of a drain against the end of another one that may go on longer. -/
def GoesOn (execute : Task → Activity ω Unit) :
    EStateM.Result Stop (Machine ω) Unit → EStateM.Result Stop (Machine ω) Unit → Prop
  | .ok _ m, r => ∃ n, r = plain execute n m
  | .error stop m, r => r = .error stop m

theorem GoesOn.of_plainAt {x : Activity ω Unit} {A : Unit → Machine ω → Prop} (h : PlainAt execute x m A) :
    GoesOn execute (.ok () m) (x m) := by
  obtain ⟨n, hn, -⟩ := h
  have hended : ended (x m) = x m := by cases x m <;> rfl
  exact ⟨n, hended.symm.trans hn⟩

/-- What two drains begin with alike. -/
theorem GoesOn.bind {x : Activity ω α} {f g : α → Activity ω Unit} (h : ∀ a m, GoesOn execute (f a m) (g a m)) :
    GoesOn execute ((x >>= f) m) ((x >>= g) m) := by
  rw [bind_apply, bind_apply]
  cases x m with
  | ok a m' => exact h a m'
  | error stop m' => exact rfl

theorem drainMicrotasks_of_nil (budget : Nat) (h : m.state.loop.microtasks = []) :
    drainMicrotasks execute budget m = .ok true m := by
  cases budget with
  | zero =>
    change EStateM.Result.ok m.state.loop.microtasks.isEmpty m = _
    rw [h]
    rfl
  | succ budget =>
    have hloop : (getLoop : Activity ω EventLoop) m = .ok m.state.loop m := rfl
    unfold drainMicrotasks
    rw [bind_apply, hloop]
    dsimp only
    rw [h]
    rfl

theorem drainMicrotasks_of_cons {budget : Nat} {task : Task} {rest : List Task}
    (h : m.state.loop.microtasks = task :: rest) : drainMicrotasks execute (budget + 1) m =
      (runTask execute task >>= fun _ ↦ drainMicrotasks execute budget)
        (m.withLoop { m.state.loop with microtasks := rest }) := by
  have hloop : (getLoop : Activity ω EventLoop) m = .ok m.state.loop m := rfl
  rw [drainMicrotasks, bind_apply, hloop]
  dsimp only
  rw [h]
  rfl

/-- What a larger budget adds is a drain of what the smaller one leaves. -/
theorem drainMicrotasks_add (budget more : Nat) (m : Machine ω) :
    drainMicrotasks execute (budget + more) m = (drainMicrotasks execute budget >>= fun empty ↦
      if empty then pure true else drainMicrotasks execute more) m := by
  rw [bind_apply]
  cases h : m.state.loop.microtasks with
  | nil => rw [drainMicrotasks_of_nil _ h, drainMicrotasks_of_nil _ h]; rfl
  | cons task rest =>
    -- an empty queue ends both drains alike, so that the induction is on the budget with a task at hand
    induction budget generalizing m task rest with
    | zero =>
      rw [Nat.zero_add]
      change _ =
        (if m.state.loop.microtasks.isEmpty then pure true else drainMicrotasks execute more : Activity ω Bool) m
      rw [h]
      rfl
    | succ budget ih =>
      rw [Nat.add_right_comm, drainMicrotasks_of_cons h, drainMicrotasks_of_cons h, bind_apply, bind_apply]
      cases runTask execute task (m.withLoop { m.state.loop with microtasks := rest }) with
      | error stop n => rfl
      | ok _ n =>
        dsimp only
        cases hn : n.state.loop.microtasks with
        | nil => rw [drainMicrotasks_of_nil _ hn, drainMicrotasks_of_nil _ hn]; rfl
        | cons task rest => exact ih n task rest hn

/-- A drain of microtasks, and what comes behind it if that leaves none. -/
theorem goesOn_drainMicrotasks {x y : Activity ω Unit} {budget more : Nat} (h : ∀ m, GoesOn execute (x m) (y m))
    (hy : ∀ m, m.state.loop.microtasks = [] → PlainAt execute y m fun _ _ ↦ True) (m : Machine ω) :
    GoesOn execute ((drainMicrotasks execute budget >>= fun empty ↦ if !empty then pure () else x) m)
      ((drainMicrotasks execute (budget + more) >>= fun empty ↦ if !empty then pure () else y) m) := by
  rw [bind_apply, bind_apply, drainMicrotasks_add, bind_apply]
  cases drainMicrotasks execute budget m with
  | error stop n => exact rfl
  | ok empty n =>
    cases empty with
    | true => exact h n
    | false =>
      have hmore : PlainAt execute (drainMicrotasks execute more >>= fun empty ↦
          if !empty then pure () else y) n fun _ _ ↦ True := by
        refine (plainAt_drainMicrotasks more n).bind fun empty n hempty ↦ ?_
        cases empty with
        | true => exact hy n (hempty rfl)
        | false => exact .pure trivial
      have hgoesOn := GoesOn.of_plainAt hmore
      rw [bind_apply] at hgoesOn
      exact hgoesOn

theorem goesOn_drainPasses (budget more passes morePasses : Nat) (m : Machine ω) :
    GoesOn execute (drainPasses execute budget passes m)
      (drainPasses execute (budget + more) (passes + morePasses) m) := by
  induction passes generalizing m with
  | zero =>
    -- the smaller number of passes is used up, and whatever the larger one adds is plain
    exact GoesOn.of_plainAt (plainAt_drainPasses execute _ _ m)
  | succ passes ih =>
    have hplain := plainAt_drainPasses execute (budget + more) (passes + morePasses)
    rw [Nat.add_right_comm, drainPasses_succ, drainPasses_succ]
    refine .bind fun loop m ↦ ?_
    cases loop.isIdle with
    | true => exact ⟨0, rfl⟩
    | false =>
      refine goesOn_drainMicrotasks (fun m ↦ .bind fun loop m ↦ ?_) (fun m ↦ plainAt_passOn hplain) m
      cases loop.macrotasks with
      | nil => exact ih m
      | cons task rest =>
        exact .bind fun _ m ↦ .bind fun _ m ↦ goesOn_drainMicrotasks ih (fun m _ ↦ hplain m) m

/-- With a higher ceiling a drain stops for the same fault, or goes on from where the lower one ends
it. -/
theorem drain_cases {ceiling higher : Int} (h : ceiling ≤ higher) (execute : Task → Activity ω Unit) (m : Machine ω) :
    (∃ stop n, drain ceiling execute m = .error stop n ∧ drain higher execute m = .error stop n) ∨
    ∃ k n, drain ceiling execute m = finish n ∧ drain higher execute m = (plain execute k >>= fun _ ↦ finish) n := by
  obtain ⟨more, hmore⟩ := Nat.exists_eq_add_of_le (Int.toNat_le_toNat h)
  have hgoesOn : GoesOn execute _ _ := goesOn_drainPasses ceiling.toNat more ceiling.toNat more m
  rw [← hmore] at hgoesOn
  rw [drain_eq, drain_eq, bind_apply, bind_apply]
  cases hr : drainPasses execute ceiling.toNat ceiling.toNat m with
  | error stop n =>
    rw [hr] at hgoesOn
    exact .inl ⟨stop, n, rfl, by rw [hgoesOn]⟩
  | ok _ n =>
    rw [hr] at hgoesOn
    obtain ⟨k, hk⟩ := hgoesOn
    refine .inr ⟨k, n, rfl, ?_⟩
    rw [hk, bind_apply]

end Stepwise.Activity
