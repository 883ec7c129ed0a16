import Stepwise.Proofs.Promise.Racing
import Stepwise.Proofs.Promise.Turn
/-!
Races in any history. A race gets its value by the call, from the first input that is at hand; if there is none, from
the input that is settled first afterwards, by the first reaction of it that comes out of the queue.
-/

namespace Stepwise

namespace History

variable {x y begun h : History} {inputs : List Value} {a q : Address} {w : Value}
  {taken left : List (Reaction × Value)} {own : Option Address}

/-- How a race stands that was not decided by the call. -/
inductive Race (begun : History) (inputs : List Value) (a : Address) (h : History) : Prop
  /-- no input has a value, and the race is pending -/
  | undecided (hvalue : h.state.value? a = none) (hinputs : ∀ q, .promise q ∈ inputs → h.state.value? q = none)
  /-- an input got its value before all others, and that is or will be the value of the race -/
  | decided {y z : History} {q : Address} {w : Value} (hy : Turns begun y) (hturn : Turn y z) (hz : Turns z h)
      (hbefore : ∀ q, .promise q ∈ inputs → y.state.value? q = none) (hfirst : z.state.standing.Decided inputs a q w)
      (hwins : h.state.standing.Wins a w)

/-- A race is kept account of, and is not settled from outside. -/
structure Watched (x y : History) (inputs : List Value) (a : Address) : Prop where
  sound : x.Sound
  made : .made (.race inputs) a ∈ x.events
  settled : ∀ v, .settled a v ∉ y.events

theorem Turn.mem_events (h : Turn x y) {e : Event} (he : e ∈ x.events) : e ∈ y.events := h.step.mem_events he

theorem Watched.races (hw : Watched x y inputs a) (h : Turn x y) : x.calls.count a = 0 ∧ x.state.Races a inputs :=
  hw.sound.books _ _ hw.made fun v hv ↦ hw.settled v (h.mem_events hv)

theorem Watched.not_own (hw : Watched x y inputs a) (h : Turn x y) (hmoves : x.Moves y taken left own)
    (hqueued : ∀ t ∈ taken, t ∈ x.state.queued) (hquiet : ∀ t ∈ taken, t.1 ≠ .race a) : own ≠ some a := by
  intro hown
  obtain ⟨hcount, hraces⟩ := hw.races h
  rcases hmoves.own a hown with ⟨t, ht, htarget⟩ | hcalls | hfetching | ⟨v, hv⟩
  · have hreaction : t.1 ∈ x.state.reactions := State.mem_reactions.mpr (.inr ⟨t.2, hqueued t ht⟩)
    exact hquiet t ht (hraces.eq_of_mem (State.mem_reactionsFor.mpr ⟨hreaction, htarget⟩))
  · exact List.count_eq_zero.mp hcount hcalls
  · exact hraces.fetching hfetching
  · exact hw.settled v hv

theorem Watched.gives {c : Standing} {b : Address} {v : Value} (hw : Watched x y inputs a) (hown : own ≠ some a)
    (hg : Gives x y taken own c b v) : b ≠ a := by
  rintro rfl
  rcases hg.target with hb | hnew
  · exact hown hb
  · exact hnew (hw.sound.events _ hw.made b rfl)

theorem Watched.registers {r : Reaction} (hw : Watched x y inputs a) (hr : Registers x q r) : r ≠ .race a := fun heq ↦
  hr a heq (hw.sound.events _ hw.made a rfl)

theorem Sound.made_of_open (hx : x.Sound) (ho : x.state.standing.Open inputs a) (hq : .promise q ∈ inputs) :
    x.state.Made q := by
  obtain ⟨-, hmem⟩ := ho.pending q hq
  cases hp : x.state.promises.get? q with
  | none => simp [State.waiting, hp] at hmem
  | some p => exact hx.sane.made hp

/-- A turn leaves an open race open, or one input decides it. -/
theorem Turn.race (h : Turn x y) (hw : Watched x y inputs a) (ho : x.state.standing.Open inputs a) :
    y.state.standing.Open inputs a ∨ ∃ q w, y.state.standing.Decided inputs a q w := by
  obtain ⟨taken, left, own, hmoves, hqueued, -⟩ := h.moves hw.sound.sane.ahead
  have htaken : ∀ t ∈ taken, t ∈ x.state.queued := fun t ht ↦ hqueued ▸ List.mem_append_left _ ht
  have hown := hw.not_own h hmoves htaken fun t ht ↦ ho.queued t (htaken t ht)
  have hleft : Standing.Open { x.state.standing with queued := left } inputs a :=
    ⟨ho.value, ho.pending, ho.only, fun t ht ↦ ho.queued t (by simp [hqueued, List.mem_append.mpr (.inr ht)])⟩
  have hgives (c : Standing) (b : Address) (v : Value) (hg : Gives x y taken own c b v) :
      b ≠ a ∧ (.promise b ∈ inputs → own = some b) :=
    ⟨hw.gives hown hg, fun hb ↦ hg.target.resolve_right fun hnew ↦ hnew (hw.sound.made_of_open ho hb)⟩
  rcases hmoves.changes.decides hleft (fun q r ↦ hw.registers) hgives with hopen | ⟨q, w, -, hd⟩
  · exact .inl hopen
  · exact .inr ⟨q, w, hd⟩

/-- What wins goes on winning, and has won when its reaction is carried out. -/
theorem Turn.wins (h : Turn x y) (hw : Watched x y inputs a) (hwins : x.state.standing.Wins a w) :
    y.state.standing.Wins a w := by
  obtain ⟨taken, left, own, hmoves, hqueued, htaken⟩ := h.moves hw.sound.sane.ahead
  rcases hwins with hvalue | ⟨hnone, before, behind, hsplit, hbefore⟩
  · exact .inl (hmoves.changes.value? hvalue)
  have hkept (hquiet : ∀ t ∈ taken, t.1 ≠ .race a)
      (hleft : Standing.Wins { x.state.standing with queued := left } a w) : y.state.standing.Wins a w := by
    have hown := hw.not_own h hmoves (fun t ht ↦ hqueued ▸ List.mem_append_left _ ht) hquiet
    exact hmoves.changes.wins hleft fun c b v ↦ hw.gives hown
  rw [State.queued_standing, hqueued] at hsplit
  rcases htaken with rfl | ⟨r, v, s', -, rfl, -⟩
  · exact hkept (List.forall_mem_nil _) (.inr ⟨hnone, before, behind, hsplit, hbefore⟩)
  cases before with
  | nil =>
    -- the reaction of the race that brings the value is taken
    obtain ⟨hhead, -⟩ := List.cons.inj hsplit
    cases hhead
    have hstanding := hmoves.raced a w List.mem_cons_self (hw.races h).2.known
    left
    rw [hstanding, Standing.value?_settle]
    simp [hnone]
  | cons t before =>
    obtain ⟨rfl, hrest⟩ := List.cons.inj hsplit
    obtain ⟨hfirst, hothers⟩ := List.forall_mem_cons.mp hbefore
    refine hkept (List.forall_mem_singleton.mpr hfirst) (.inr ⟨hnone, before, behind, hrest, hothers⟩)

/-- An open race stays open, or is decided by one turn, and what wins then goes on winning. -/
theorem Turns.race (hturns : Turns begun h) (hbegun : begun.Sound) (hmade : .made (.race inputs) a ∈ begun.events)
    (hopen : begun.state.standing.Open inputs a) (hsettled : ∀ v, .settled a v ∉ h.events) :
    h.state.standing.Open inputs a ∨ ∃ y z q w, Turns begun y ∧ Turn y z ∧ Turns z h ∧
      y.state.standing.Open inputs a ∧ z.state.standing.Decided inputs a q w ∧ h.state.standing.Wins a w := by
  induction hturns with
  | refl => exact .inl hopen
  | @tail x h hx hturn ih =>
    have hreaches : Reaches begun x := Turns.reaches hx
    have hw : Watched x h inputs a := ⟨hreaches.sound hbegun, hreaches.mem_events hmade, hsettled⟩
    rcases ih fun v hv ↦ hsettled v (hturn.mem_events hv) with ho | ⟨y, z, q, w, hy, hz, hzx, ho, hd, hwins⟩
    · rcases hturn.race hw ho with ho' | ⟨q, w, hd⟩
      · exact .inl ho'
      · exact .inr ⟨x, h, q, w, hx, hturn, .refl, ho, hd, hd.wins⟩
    · exact .inr ⟨y, z, q, w, hy, hz, hzx.tail hturn, ho, hd, hturn.wins hw hwins⟩

/-- What holds of a race after its call, whatever happens then. -/
structure Contest (begun : History) (inputs : List Value) (a : Address) (h : History) : Prop where
  /-- the value that it got by the call it keeps -/
  atOnce : ∀ w, begun.state.value? a = some w → h.state.value? a = some w
  later : begun.state.value? a = none → begun.Race inputs a h
  /-- a value that it has stays -/
  stays : ∀ h' w, Turns h h' → h.state.value? a = some w → h'.state.value? a = some w
  empty : inputs = [] → h.state.value? a = none

theorem contest_of_open (hturns : Turns begun h) (hbegun : begun.Sound) (hmade : .made (.race inputs) a ∈ begun.events)
    (hopen : begun.state.value? a = none → begun.state.standing.Open inputs a)
    (hempty : inputs = [] → begun.state.value? a = none) (hsettled : ∀ v, .settled a v ∉ h.events) :
    begun.Contest inputs a h := by
  have hlater (hnone : begun.state.value? a = none) : begun.Race inputs a h := by
    rcases Turns.race hturns hbegun hmade (hopen hnone) hsettled with ho | ⟨y, z, q, w, hy, hz, hzh, ho, hd, hwins⟩
    · exact .undecided ho.value fun q hq ↦ (ho.pending q hq).1
    · exact .decided hy hz hzh (fun q hq ↦ (ho.pending q hq).1) hd hwins
  have hsound : h.Sound := hturns.reaches.sound hbegun
  refine ⟨fun w ↦ hturns.reaches.value? hbegun, hlater, fun h' w hh' ↦ hh'.reaches.value? hsound, fun hnil ↦ ?_⟩
  cases hlater (hempty hnil) with
  | undecided hvalue _ => exact hvalue
  | decided _ _ _ _ hd _ =>
    have hinput := hd.input
    simp [hnil] at hinput

/-- Whatever has happened before, a race of inputs that are there can be started. It gets the value of the first one at
hand by the call, and whatever happens then, in the order of the event loop, it is a contest for its value. -/
theorem contest_of_race {start : History} (hstart : Reaches {} start) (inputs : List Value)
    (hknown : ∀ q, .promise q ∈ inputs → start.state.promises.contains q = true) :
    ∃ a s, Engine.race inputs start.state = .ok a s ∧ start.state.promises.contains a = false ∧
      s.value? a = inputs.findSome? start.state.standing.delivered? ∧
      ∀ h, Turns ⟨s, start.calls, start.events ++ [.made (.race inputs) a]⟩ h → (∀ v, .settled a v ∉ h.events) →
        Contest ⟨s, start.calls, start.events ++ [.made (.race inputs) a]⟩ inputs a h := by
  have hsound : start.Sound := hstart.sound sound_initial
  obtain ⟨s, hrace, hstanding⟩ := Engine.exists_race hsound.sane hknown
  have hnew : start.state.promises.contains (.promise (start.state.lastId + 1)) = false := by
    simp [Dict.contains, hsound.sane.get?_next]
  have hinputs : .promise (.promise (start.state.lastId + 1)) ∉ inputs := fun h ↦ by simp [hknown _ h] at hnew
  have hopen := Engine.open_next hsound.sane
  have hvalue : s.value? (.promise (start.state.lastId + 1)) = inputs.findSome? start.state.standing.delivered? := by
    have hjoined := Standing.value?_joins (c := start.state.standing) hinputs fun _ _ ↦ rfl
    rw [← hstanding, hopen.value, Option.none_or] at hjoined
    exact hjoined
  have hbegun : Sound ⟨s, start.calls, start.events ++ [.made (.race inputs) (.promise (start.state.lastId + 1))]⟩ := by
    have hstep : Step start _ := .operate (.race inputs)
    have hnote : (Operation.race inputs).note start.state =
        .ok (.made (.race inputs) (.promise (start.state.lastId + 1))) s := by
      change (Event.made _ <$> Engine.race inputs) start.state = _
      rw [map_apply, hrace]
    rw [hnote] at hstep
    exact hstep.sound hsound
  refine ⟨_, s, hrace, hnew, hvalue, fun h hturns hsettled ↦ ?_⟩
  refine contest_of_open hturns hbegun (List.mem_append_right _ List.mem_cons_self) (fun hnone ↦ ?_) (fun hnil ↦ ?_)
    hsettled
  · have hpending : ∀ v ∈ inputs, start.state.standing.delivered? v = none :=
      List.findSome?_eq_none_iff.mp (hvalue.symm.trans hnone)
    rw [hstanding]
    exact Standing.open_joins hinputs hopen hpending
  · rw [hvalue, hnil]
    rfl

def twoPending : History := operate {} [.create, .create]

/-- A race of both, the first of them taking part twice. -/
def mixedRace : List Value := [.promise (.promise 1), .promise (.promise 2), .promise (.promise 1)]

def raced : History := twoPending.operate [.race mixedRace]

/-- The second one is settled, then the first one. -/
def bothSettled : History := raced.operate [.settle (.promise 2) (.ofInt 7), .settle (.promise 1) (.ofInt 5)]

/-- The oldest reaction is carried out, which is that of the race to the second promise. -/
def wonRace : History :=
  ⟨(after (Activity.runReaction (fun _ _ ↦ pure .null) (.race (.promise 3)) (.ofInt 7) ⟨bothSettled.rest, ()⟩)).state,
    bothSettled.calls, bothSettled.events⟩

theorem contest_wonRace : Reaches {} twoPending ∧
    (∀ q, .promise q ∈ mixedRace → twoPending.state.promises.contains q = true) ∧ Turns raced wonRace ∧
    raced.Contest mixedRace (.promise 3) wonRace ∧ wonRace.state.value? (.promise 3) = some (.ofInt 7) := by
  have hknown : ∀ q, .promise q ∈ mixedRace → twoPending.state.promises.contains q = true := by
    intro q hq
    have hq : q = .promise 1 ∨ q = .promise 2 ∨ q = .promise 1 := by simpa [mixedRace] using hq
    rcases hq with rfl | rfl | rfl <;> rfl
  have hreaches : Reaches {} twoPending := (turns_operate _ _).reaches
  obtain ⟨a, s, hrace, -, -, hcontest⟩ := contest_of_race hreaches mixedRace hknown
  have hraced : Engine.race mixedRace twoPending.state = .ok (.promise 3) raced.state := rfl
  cases hrace.symm.trans hraced
  have hsettled : Turns raced bothSettled := turns_operate _ _
  have htakes : bothSettled.state.TakesOldest (.race (.promise 3)) (.ofInt 7) bothSettled.rest := takesOldest_rest rfl
  have hreact : Turn bothSettled wonRace := .react htakes nofun _ ()
  have hturns : Turns raced wonRace := hsettled.tail hreact
  refine ⟨hreaches, hknown, hturns, hcontest wonRace hturns fun v hv ↦ ?_, rfl⟩
  have hevents : wonRace.events = [.made .create (.promise 1), .made .create (.promise 2),
      .made (.race mixedRace) (.promise 3), .settled (.promise 2) (.ofInt 7), .settled (.promise 1) (.ofInt 5)] := rfl
  simp [hevents] at hv

end History

end Stepwise
