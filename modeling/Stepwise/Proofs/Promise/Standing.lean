import Mathlib.Data.List.Infix
import Mathlib.Logic.Function.Basic
import Mathlib.Logic.Relation
import Stepwise.Proofs.Promise.Sparing
/-!
How promises stand: their values, the reactions that wait for each of them in order, and the queue. On this every
operation is a row of two kinds of changes, registering a reaction and settling a promise.
-/

open Function (update update_of_ne)

namespace Stepwise

/-- The values of promises, the reactions that wait for them, oldest first, and those in the queue. -/
structure Standing where
  value? : Address → Option Value
  waiting : Address → List Reaction
  queued : List (Reaction × Value)

namespace Standing

/-- A reaction waits for a promise or, when that has its value, goes to the end of the queue. -/
def register (c : Standing) (q : Address) (r : Reaction) : Standing :=
  match c.value? q with
  | none => { c with waiting := update c.waiting q (c.waiting q ++ [r]) }
  | some w => { c with queued := c.queued ++ [(r, w)] }

/-- A promise without a value gets one, and what waited for it goes to the end of the queue. -/
def settle (c : Standing) (q : Address) (v : Value) : Standing :=
  match c.value? q with
  | none => ⟨update c.value? q (some v), update c.waiting q [], c.queued ++ (c.waiting q).map (·, v)⟩
  | some _ => c

/-- What an input of an aggregate contributes: a plain value itself, a promise its value. -/
def delivered? (c : Standing) : Value → Option Value
  | .promise q => c.value? q
  | v => some v

/-- One change, by which only certain reactions are registered and only certain promises are settled. -/
inductive Change (new : Address → Reaction → Prop) (gives : Standing → Address → Value → Prop) :
    Standing → Standing → Prop
  | register {c : Standing} {q : Address} {r : Reaction} (h : new q r) : Change new gives c (c.register q r)
  | settle {c : Standing} {q : Address} {v : Value} (h : gives c q v) : Change new gives c (c.settle q v)

/-- A row of changes. -/
def Changes (new : Address → Reaction → Prop) (gives : Standing → Address → Value → Prop) :
    Standing → Standing → Prop := Relation.ReflTransGen (Change new gives)

variable {c c' : Standing} {q b : Address} {r : Reaction} {v w : Value}
  {new : Address → Reaction → Prop} {gives : Standing → Address → Value → Prop}

theorem register_of_none (h : c.value? q = none) (r : Reaction) :
    c.register q r = { c with waiting := update c.waiting q (c.waiting q ++ [r]) } := by
  simp only [register, h]

theorem register_of_some (h : c.value? q = some w) (r : Reaction) :
    c.register q r = { c with queued := c.queued ++ [(r, w)] } := by
  simp only [register, h]

theorem settle_of_none (h : c.value? q = none) (v : Value) : c.settle q v =
    ⟨update c.value? q (some v), update c.waiting q [], c.queued ++ (c.waiting q).map (·, v)⟩ := by
  simp only [settle, h]

theorem settle_of_some (h : c.value? q = some w) (v : Value) : c.settle q v = c := by
  simp only [settle, h]

@[simp]
theorem value?_register (c : Standing) (q : Address) (r : Reaction) : (c.register q r).value? = c.value? := by
  unfold register
  split <;> rfl

theorem value?_settle (c : Standing) (q : Address) (v : Value) (b : Address) :
    (c.settle q v).value? b = if b = q then (c.value? q).or (some v) else c.value? b := by
  cases h : c.value? q with
  | none =>
    rw [settle_of_none h]
    by_cases hb : b = q
    · subst hb
      simp
    · simp [hb]
  | some w =>
    rw [settle_of_some h]
    by_cases hb : b = q
    · subst hb
      simp [h]
    · simp [hb]

theorem Changes.preserves {P : Standing → Prop} (h : Changes new gives c c') (hP : P c)
    (hregister : ∀ c q r, new q r → P c → P (c.register q r))
    (hsettle : ∀ c q v, gives c q v → P c → P (c.settle q v)) : P c' := by
  induction h with
  | refl => exact hP
  | tail _ hchange ih =>
    cases hchange with
    | register h => exact hregister _ _ _ h ih
    | settle h => exact hsettle _ _ _ h ih

theorem value?_settle_of_some (h : c.value? b = some w) (q : Address) (v : Value) :
    (c.settle q v).value? b = some w := by
  rw [value?_settle]
  by_cases hb : b = q
  · rw [if_pos hb, ← hb, h, Option.some_or]
  · rw [if_neg hb, h]

theorem Changes.value? (h : Changes new gives c c') (hw : c.value? q = some w) : c'.value? q = some w := by
  refine h.preserves (P := fun c ↦ c.value? q = some w) hw (fun c b r _ hc ↦ ?_) fun c b v _ hc ↦ ?_
  · rwa [value?_register]
  · exact value?_settle_of_some hc b v

theorem queued_register (c : Standing) (q : Address) (r : Reaction) : c.queued <+: (c.register q r).queued := by
  cases h : c.value? q with
  | none =>
    rw [register_of_none h]
  | some w =>
    rw [register_of_some h]
    exact List.prefix_append _ _

theorem queued_settle (c : Standing) (q : Address) (v : Value) : c.queued <+: (c.settle q v).queued := by
  cases h : c.value? q with
  | none =>
    rw [settle_of_none h]
    exact List.prefix_append _ _
  | some w =>
    rw [settle_of_some h]

theorem waiting_register (c : Standing) (q b : Address) (r : Reaction) :
    c.waiting b <+: (c.register q r).waiting b := by
  cases h : c.value? q with
  | none =>
    rw [register_of_none h]
    by_cases hb : b = q
    · subst hb
      simp
    · simp [hb]
  | some w =>
    rw [register_of_some h]

theorem waiting_settle (c : Standing) (v : Value) (hb : b ≠ q) : (c.settle q v).waiting b = c.waiting b := by
  cases h : c.value? q with
  | none => simp [settle_of_none h, hb]
  | some w => rw [settle_of_some h]

/-- Entries are only added to the queue, and only at its end. -/
theorem Changes.queued (h : Changes new gives c c') : c.queued <+: c'.queued :=
  h.preserves (P := fun c' ↦ c.queued <+: c'.queued) (List.prefix_refl _)
    (fun c' b r _ hc ↦ hc.trans (queued_register c' b r)) fun c' b v _ hc ↦ hc.trans (queued_settle c' b v)

end Standing

namespace State

variable {s s' t : State} {q b : Address} {p : Promise} {r : Reaction} {v w : Value}
  {new : Address → Reaction → Prop} {gives : Standing → Address → Value → Prop}

/-- The reactions that wait for a promise, oldest first. -/
def waiting (s : State) (q : Address) : List Reaction := ((s.promises.get? q).map Promise.reactions).getD []

def standing (s : State) : Standing := ⟨s.value?, s.waiting, s.queued⟩

@[simp]
theorem value?_standing (s : State) : s.standing.value? = s.value? := rfl

@[simp]
theorem waiting_standing (s : State) : s.standing.waiting = s.waiting := rfl

@[simp]
theorem queued_standing (s : State) : s.standing.queued = s.queued := rfl

/-- The numbers that are still to be handed out belong to no promise. -/
def Ahead (s : State) : Prop := ∀ n, s.lastId < n → s.promises.get? (.promise n) = none

/-- How promises stand has changed by certain registrations and settlements only. -/
structure Becomes (new : Address → Reaction → Prop) (gives : Standing → Address → Value → Prop) (s t : State) :
    Prop where
  ahead : t.Ahead
  changes : Standing.Changes new gives s.standing t.standing

theorem Sane.ahead (hs : s.Sane) : s.Ahead := by
  intro n hn
  cases hp : s.promises.get? (.promise n) with
  | none => rfl
  | some p =>
    obtain ⟨m, hm, heq⟩ := hs.made hp
    cases heq
    omega

theorem standing_congr (hpromises : ∀ b, t.promises.get? b = s.promises.get? b) (hqueued : t.queued = s.queued) :
    t.standing = s.standing := by
  unfold standing
  congr 1
  · funext b
    unfold value?
    rw [hpromises]
  · funext b
    unfold waiting
    rw [hpromises]

theorem standing_of_get? {p' : Promise} (hp : ∀ b, t.promises.get? b = if b = q then some p' else s.promises.get? b)
    {tasks : List (Reaction × Value)} (hqueued : t.queued = s.queued ++ tasks) :
    t.standing = ⟨update s.value? q p'.value?, update s.waiting q p'.reactions, s.queued ++ tasks⟩ := by
  unfold standing
  congr 1
  · funext b
    unfold value?
    rw [hp]
    by_cases hb : b = q
    · subst hb
      simp
    · rw [if_neg hb, update_of_ne hb]
  · funext b
    unfold waiting
    rw [hp]
    by_cases hb : b = q
    · subst hb
      simp
    · rw [if_neg hb, update_of_ne hb]

theorem value?_of_get? (hp : s.promises.get? q = some p) : s.value? q = p.value? := by
  unfold value?
  rw [hp, Option.bind_some]

theorem waiting_of_get? (hp : s.promises.get? q = some p) : s.waiting q = p.reactions := by
  unfold waiting
  rw [hp, Option.map_some, Option.getD_some]

namespace Becomes

theorem refl (hs : s.Ahead) : s.Becomes new gives s := ⟨hs, .refl⟩

theorem trans {u : State} (h : s.Becomes new gives t) (h' : t.Becomes new gives u) : s.Becomes new gives u :=
  ⟨h'.ahead, Relation.ReflTransGen.trans h.changes h'.changes⟩

theorem of_standing_eq (hahead : t.Ahead) (h : t.standing = s.standing) : s.Becomes new gives t :=
  ⟨hahead, h ▸ .refl⟩

end Becomes

end State

end Stepwise
