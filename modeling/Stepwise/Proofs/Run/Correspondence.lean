import Stepwise.Proofs.Outcome
import Stepwise.Run
/-!
Two evaluations of the same forms side by side. A correspondence says what the two machines have
in common and how an evaluation may move them; activities are related when they move
corresponding machines to corresponding machines and end alike.
-/

namespace Stepwise

/-- The machines of two evaluations of the same program. -/
abbrev Machines := Machine Journal × Machine Journal

/-- The stretches of an evaluation, by what they may leave changed behind them. -/
inductive Stretch where
  | expression
  | statement
  /-- part of a loop, which may renew the innermost scope -/
  | iteration
  /-- part of a call, which may write to its frame -/
  | body
  /-- part of a run, which may take tasks out of the queues -/
  | task
deriving DecidableEq

/-- The stretch that a loop is, with a fresh scope for each iteration or without. -/
def Stretch.ofLoop (perIteration : Bool) : Stretch := if perIteration then iteration else statement

theorem Stretch.ofLoop_ne (perIteration : Bool) : ofLoop perIteration ≠ .expression := by
  cases perIteration <;> exact nofun

theorem Activity.exists_fault {ω α : Type} {x : Engine α} {m n : Machine ω} {stop : Stop}
    (h : Activity.ofEngine x m = .error stop n) : ∃ f, stop = .fault f := by
  unfold Activity.ofEngine at h
  cases hx : x m.state with
  | ok a s =>
    rw [hx] at h
    cases h
  | error f s =>
    rw [hx] at h
    cases h
    exact ⟨f, rfl⟩

structure Correspondence where
  /-- what holds between any two operations -/
  holds : Machines → Prop
  /-- how far a stretch may move the machines -/
  leads : Stretch → Machines → Machines → Prop
  /-- how far one may that does not come to its end -/
  strays : Stretch → Machines → Machines → Prop
  /-- the values that an evaluation may hold on to -/
  valid : Machines → Value → Prop
  /-- the closures of such functions -/
  closed : Machines → List Nat → Prop
  /-- whether the innermost scope may be renewed -/
  renewable : Machines → Prop
  /-- whether a scope is the one of the innermost call -/
  entered : Machines → Nat → Prop
  /-- the faults that may stop an evaluation -/
  raises : Fault → Prop
  refl : ∀ k p, leads k p p
  trans : ∀ {k p q r}, leads k p q → leads k q r → leads k p r
  of_expression : ∀ {k p q}, leads .expression p q → leads k p q
  of_statement : ∀ {k p q}, k ≠ .expression → leads .statement p q → leads k p q
  strays_of_leads : ∀ {k p q}, leads k p q → strays k p q
  strays_trans : ∀ {k p q r}, strays k p q → strays k q r → strays k p r
  strays_of_expression : ∀ {k p q}, strays .expression p q → strays k p q
  strays_of_statement : ∀ {k p q}, k ≠ .expression → strays .statement p q → strays k p q
  valid_leads : ∀ {p q v}, leads .expression p q → valid p v → valid q v
  closed_leads : ∀ {p q ids}, leads .expression p q → closed p ids → closed q ids
  entered_leads : ∀ {p q id}, leads .expression p q → entered p id → entered q id
  renewable_leads : ∀ {p q}, leads .iteration p q → renewable p → renewable q
  valid_function : ∀ {p f}, valid p (.function f) ↔ closed p f.closure

namespace Correspondence

variable (L : Correspondence) {α β : Type}

/-- What may stop an evaluation. -/
def admits (p : Machines) : Stop → Prop
  | .returned v => L.valid p v
  | .fault f => L.raises f
  | .exhausted => True

/-- How far a stretch that stops has moved the machines. A return is taken by the call that it is for, which
comes to its end. -/
def stops (k : Stretch) (p q : Machines) : Stop → Prop
  | .returned _ => L.leads k p q
  | .fault _ | .exhausted => L.strays k p q

/-- The ends of two activities that started on the machines of `p`: both end with the same result,
or both stop for the same reason. -/
inductive Ends (k : Stretch) (A : Machines → α → Prop) (p : Machines) :
    EStateM.Result Stop (Machine Journal) α → EStateM.Result Stop (Machine Journal) α → Prop
  | ok {a : α} {m n : Machine Journal} :
      L.holds (m, n) → L.leads k p (m, n) → A (m, n) a → Ends k A p (.ok a m) (.ok a n)
  | error {stop : Stop} {m n : Machine Journal} :
      L.holds (m, n) → L.stops k p (m, n) stop → L.admits (m, n) stop → Ends k A p (.error stop m) (.error stop n)

def Related (k : Stretch) (A : Machines → α → Prop) (x y : Eval α) (p : Machines) : Prop :=
  L.Ends k A p (x p.1) (y p.2)

/-- No condition on a result. -/
def anything : Machines → α → Prop := fun _ _ ↦ True

variable {L} {k : Stretch} {A : Machines → α → Prop} {B : Machines → β → Prop} {p : Machines}
variable {x y : Eval α}

theorem admits_mono {q : Machines} {stop : Stop} (h : L.admits p stop) (hv : ∀ v, L.valid p v → L.valid q v) :
    L.admits q stop := by
  cases stop with
  | returned v => exact hv v h
  | fault f => exact h
  | exhausted => trivial

theorem stops_of_leads {q : Machines} (h : L.leads k p q) (stop : Stop) : L.stops k p q stop := by
  cases stop with
  | returned v => exact h
  | fault f => exact L.strays_of_leads h
  | exhausted => exact L.strays_of_leads h

theorem stops.mono {k' : Stretch} {p' q q' : Machines} {stop : Stop} (h : L.stops k p q stop)
    (hl : L.leads k p q → L.leads k' p' q') (hs : L.strays k p q → L.strays k' p' q') : L.stops k' p' q' stop := by
  cases stop with
  | returned v => exact hl h
  | fault f => exact hs h
  | exhausted => exact hs h

theorem stops.strays {q : Machines} {stop : Stop} (h : L.stops k p q stop) : L.strays k p q := by
  cases stop with
  | returned v => exact L.strays_of_leads h
  | fault f => exact h
  | exhausted => exact h

theorem Ends.mono {k' : Stretch} {A' : Machines → α → Prop} {p' : Machines}
    {a b : EStateM.Result Stop (Machine Journal) α}
    (h : L.Ends k A p a b) (hl : ∀ q, L.leads k p q → L.leads k' p' q) (hs : ∀ q, L.strays k p q → L.strays k' p' q)
    (hA : ∀ q c, L.holds q → L.leads k p q → A q c → A' q c) : L.Ends k' A' p' a b := by
  cases h with
  | ok hh hk ha => exact .ok hh (hl _ hk) (hA _ _ hh hk ha)
  | error hh hk hv => exact .error hh (hk.mono (hl _) (hs _)) hv

theorem Related.post {C : Machines → α → Prop} (h : L.Related k A x y p)
    (hA : ∀ q a, L.holds q → L.leads k p q → A q a → C q a) : L.Related k C x y p :=
  Ends.mono h (fun _ ↦ id) (fun _ ↦ id) hA

theorem Related.post_first {C : Machine Journal → α → Prop} (h : L.Related k A x y p)
    (hx : ∀ a m, x p.1 = .ok a m → C m a) : L.Related k (fun q a ↦ C q.1 a) x y p := by
  unfold Related at h ⊢
  generalize x p.1 = r, y p.2 = r' at h hx ⊢
  cases h with
  | ok hh hk _ => exact .ok hh hk (hx _ _ rfl)
  | error hh hk hv => exact .error hh hk hv

theorem Related.congr {z : Eval α} (e : z p.2 = y p.2) (h : L.Related k A x y p) : L.Related k A x z p := by
  unfold Related at h ⊢
  rw [e]
  exact h

theorem Related.of_expression (h : L.Related .expression A x y p) : L.Related k A x y p :=
  Ends.mono h (fun _ ↦ L.of_expression) (fun _ ↦ L.strays_of_expression) (fun _ _ _ _ ↦ id)

theorem Related.of_statement (h : L.Related .statement A x y p) (hk : k ≠ .expression) :
    L.Related k A x y p :=
  Ends.mono h (fun _ ↦ L.of_statement hk) (fun _ ↦ L.strays_of_statement hk) (fun _ _ _ _ ↦ id)

theorem Related.pure {a : α} (hp : L.holds p) (ha : A p a) :
    L.Related k A (Pure.pure a) (Pure.pure a) p := .ok hp (L.refl k p) ha

theorem Related.throw {stop : Stop} (hp : L.holds p) (hstop : L.admits p stop) :
    L.Related k A (MonadExcept.throw stop) (MonadExcept.throw stop) p :=
  .error hp (stops_of_leads (L.refl k p) stop) hstop

theorem Related.bind {f g : α → Eval β} (h : L.Related k A x y p)
    (hf : ∀ q a, L.holds q → L.leads k p q → A q a → L.Related k B (f a) (g a) q) :
    L.Related k B (x >>= f) (y >>= g) p := by
  unfold Related at h ⊢
  rw [bind_apply, bind_apply]
  generalize x p.1 = a, y p.2 = b at h
  cases h with
  | ok hh hk ha =>
    exact (hf _ _ hh hk ha).mono (fun _ ↦ L.trans hk) (fun _ ↦ L.strays_trans (L.strays_of_leads hk)) fun _ _ _ _ ↦ id
  | error hh hk hv => exact .error hh hk hv

theorem Related.seq {f g : α → Eval β} (h : L.Related k A x y p)
    (hf : ∀ q, L.holds q → L.leads k p q → ∀ a, L.Related k B (f a) (g a) q) :
    L.Related k B (x >>= f) (y >>= g) p := h.bind fun q a hq hl _ ↦ hf q hq hl a

theorem Related.lift (e : Except Fault α) (hp : L.holds p) (he : ∀ f, e = .error f → L.raises f)
    (hA : ∀ a, e = .ok a → A p a) : L.Related k A (liftM e) (liftM e) p := by
  cases e with
  | ok a => exact .pure hp (hA a rfl)
  | error f => exact .throw hp (he f rfl)

theorem Related.ite {c : Prop} [Decidable c] {x' y' : Eval α} (h : c → L.Related k A x y p)
    (h' : ¬c → L.Related k A x' y' p) :
    L.Related k A (if c then x else x') (if c then y else y') p := by
  split
  next hc => exact h hc
  next hc => exact h' hc

theorem Related.catchReturn {x y : Eval Value} (h : L.Related k L.valid x y p) :
    L.Related k L.valid (Eval.catchReturn x) (Eval.catchReturn y) p := by
  unfold Related at h
  change L.Ends k L.valid p (Eval.catchReturn x p.1) (Eval.catchReturn y p.2)
  unfold Eval.catchReturn
  generalize x p.1 = a, y p.2 = b at h
  cases h with
  | ok hh hk ha => exact .ok hh hk ha
  | @error stop m n hh hk hv =>
    cases stop with
    | returned v => exact .ok hh hk hv
    | fault f => exact .error hh hk hv
    | exhausted => exact .error hh hk hv

/-- A closing operation related on both sides, under which values stay valid. -/
theorem Related.closing {close : Engine Unit} (h : L.Related k anything x y p)
    (hclose : ∀ q, L.holds q → L.Related k (fun r _ ↦ ∀ v, L.valid q v → L.valid r v)
      (Activity.ofEngine close) (Activity.ofEngine close) q) :
    L.Related k anything (Activity.closing x close) (Activity.closing y close) p := by
  unfold Related at h hclose ⊢
  unfold Activity.closing
  generalize x p.1 = a, y p.2 = b at h
  cases h with
  | @ok c m n hh hk _ =>
    have hc := hclose (m, n) hh
    dsimp only at hc ⊢
    generalize Activity.ofEngine close m = a, Activity.ofEngine close n = b at hc
    cases hc with
    | ok hh' hk' _ => exact .ok hh' (L.trans hk hk') trivial
    | error hh' hk' hv =>
      exact .error hh' (hk'.mono (L.trans hk) (L.strays_trans (L.strays_of_leads hk))) hv
  | @error stop m n hh hk hv =>
    have hc := hclose (m, n) hh
    dsimp only at hc ⊢
    have hfault {stop' : Stop} {m' : Machine Journal} (h : Activity.ofEngine close m = .error stop' m') :
        ∃ f, stop' = .fault f := Activity.exists_fault h
    generalize Activity.ofEngine close m = a, Activity.ofEngine close n = b at hc hfault
    cases hc with
    | ok hh' hk' hvalid =>
      refine .error hh' (hk.mono (fun h ↦ L.trans h hk') fun h ↦ ?_) (admits_mono hv hvalid)
      exact L.strays_trans h (L.strays_of_leads hk')
    | error hh' hk' hv' =>
      -- the stop is that of the closing operation, which is never a return
      obtain ⟨f, rfl⟩ := hfault rfl
      have hstray : L.strays k p (m, n) := hk.strays
      exact .error hh' (L.strays_trans hstray hk') hv'

/-- A closing operation that does not fail and completes another stretch, from machines before the
activity was opened. -/
theorem Related.closes {k' : Stretch} {q : Machines} {close : Engine Unit} {C : Machines → α → Prop}
    (h : L.Related k A x y q)
    (hclose : ∀ r, L.holds r → L.strays k q r → ∃ m n,
      Activity.ofEngine close r.1 = .ok () m ∧ Activity.ofEngine close r.2 = .ok () n ∧
      L.holds (m, n) ∧ (L.leads k q r → L.leads k' p (m, n)) ∧ L.strays k' p (m, n) ∧
      (∀ v, L.valid r v → L.valid (m, n) v) ∧ ∀ a, A r a → C (m, n) a) :
    L.Ends k' C p (Activity.closing x close q.1) (Activity.closing y close q.2) := by
  unfold Related at h
  unfold Activity.closing
  generalize x q.1 = a, y q.2 = b at h
  cases h with
  | ok hh hk ha =>
    obtain ⟨m', n', hm, hn, hh', hleads, -, -, hC⟩ := hclose _ hh (L.strays_of_leads hk)
    simp only [hm, hn]
    exact .ok hh' (hleads hk) (hC _ ha)
  | error hh hk hv =>
    obtain ⟨m', n', hm, hn, hh', hleads, hstrays, hvalid, -⟩ := hclose _ hh hk.strays
    simp only [hm, hn]
    exact .error hh' (hk.mono hleads fun _ ↦ hstrays) (admits_mono hv hvalid)

end Correspondence

end Stepwise
