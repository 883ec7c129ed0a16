import Mathlib.Algebra.Order.Group.Multiset
import Mathlib.Tactic.Abel
import Stepwise.Proofs.Dict
import Stepwise.Run.Promise
/-!
The books of an aggregate of all: which of its slots are still to be filled, and by which
reactions. A reaction waits for its promise or, when that has its value, as a task in the queue.
-/

namespace Stepwise

namespace Reaction

/-- The promise that a reaction brings closer to a value. -/
def target : Reaction → Address
  | handle _ derived => derived
  | collect aggregate _ => aggregate
  | race aggregate => aggregate
  | adopt target => target

/-- The slot of an aggregate that a reaction fills. -/
def slotIn (a : Address) : Reaction → Option Nat
  | collect aggregate index => if aggregate = a then some index else none
  | _ => none

theorem slotIn_collect (a : Address) (index : Nat) : (collect a index).slotIn a = some index := if_pos rfl

theorem target_of_slotIn {a : Address} {r : Reaction} {i : Nat} (h : r.slotIn a = some i) : r = collect a i := by
  cases r with
  | collect aggregate index =>
    simp only [slotIn, Option.ite_none_right_eq_some, Option.some.injEq] at h
    rw [h.1, h.2]
  | _ => cases h

end Reaction

namespace Task

def reaction? (task : Task) : Option (Reaction × Value) :=
  match task.job with
  | .react reaction value => some (reaction, value)
  | _ => none

def fetched? (task : Task) : Option Address :=
  match task.job with
  | .fetched address _ => some address
  | _ => none

end Task

namespace State

/-- The reactions that wait for promises. -/
def registered (s : State) : List Reaction := s.promises.values.flatMap Promise.reactions

/-- The reactions in the queue of microtasks. -/
def queued (s : State) : List (Reaction × Value) := s.loop.microtasks.filterMap Task.reaction?

/-- The promises of responses in the queue of macrotasks. -/
def fetching (s : State) : List Address := s.loop.macrotasks.filterMap Task.fetched?

def reactions (s : State) : List Reaction := s.registered ++ s.queued.map Prod.fst

/-- The slots of an aggregate for which a reaction waits somewhere. -/
def entries (s : State) (a : Address) : List Nat := s.reactions.filterMap (Reaction.slotIn a)

/-- The value of a settled promise. -/
def value? (s : State) (a : Address) : Option Value := (s.promises.get? a).bind Promise.value?

/-- What an input of an aggregate contributes: a plain value itself, a promise its value. -/
def Delivers (s : State) : Value → Value → Prop
  | .promise q, w => s.value? q = some w
  | v, w => w = v

/-- A numbered promise that has been handed out. -/
def Made (s : State) (a : Address) : Prop := ∃ n ≤ s.lastId, a = .promise n

theorem Made.mono {s s' : State} {a : Address} (h : s.Made a) (hle : s.lastId ≤ s'.lastId) : s'.Made a := by
  obtain ⟨n, hn, rfl⟩ := h
  exact ⟨n, hn.trans hle, rfl⟩

theorem Delivers.mono {s s' : State} {v w : Value} (h : s.Delivers v w)
    (hvalue : ∀ b w, s.value? b = some w → s'.value? b = some w) : s'.Delivers v w := by
  cases v with
  | promise q => exact hvalue q w h
  | _ => exact h

/-- Addresses are handed out in order, and no reaction waits for a settled promise. -/
structure Sane (s : State) : Prop where
  nodup : s.promises.keys.Nodup
  keys : ∀ e ∈ s.promises.entries, s.Made e.1
  fresh : ∀ n, s.lastId < n → s.heap.get? (.array n) = none
  settled : ∀ e ∈ s.promises.entries, e.2.value? ≠ none → e.2.reactions = []
  reactions : ∀ r ∈ s.reactions, s.Made r.target
  fetching : ∀ b ∈ s.fetching, s.Made b

/-- Where the reactions of an aggregate are. Those for the slots at hand are nowhere. -/
structure Tracks (a : Address) (inputs : List Value) (hand : List Nat) (s : State) : Prop where
  made : s.Made a
  nodup : (hand ++ s.entries a).Nodup
  registered : ∀ e ∈ s.promises.entries, ∀ i, .collect a i ∈ e.2.reactions → inputs[i]? = some (.promise e.1)
  queued : ∀ i w, (.collect a i, w) ∈ s.queued → ∃ q, inputs[i]? = some (.promise q) ∧ s.value? q = some w
  alone : ∀ r ∈ s.reactions, r.target = a → ∃ i, r = .collect a i
  fetching : a ∉ s.fetching

/-- What an aggregate has stored. Its other slots are filled, and the ones at hand and those that
reactions wait for are counted. -/
structure Stores (a : Address) (inputs : List Value) (hand : List Nat) (value? : Option Value)
    (slots : List Value) (s : State) : Prop where
  stored : ∃ p, s.promises.get? a = some p ∧ p.value? = value? ∧ p.slots = slots ∧
    p.remaining = hand.length + (s.entries a).length
  length : slots.length = inputs.length
  filled : ∀ i v, inputs[i]? = some v → i ∉ hand → i ∉ s.entries a → ∃ w, slots[i]? = some w ∧ s.Delivers v w

/-- The books of an aggregate. -/
structure Ledger (a : Address) (inputs : List Value) (hand : List Nat) (value? : Option Value)
    (slots : List Value) (s : State) : Prop where
  tracks : s.Tracks a inputs hand
  stores : s.Stores a inputs hand value? slots

/-- A promise was put in or written over, and tasks into the queue. Its reactions and new ones wait
for it or, when it has its value, in the queue. -/
structure Rewrites (s s' : State) (q : Address) (p p' : Promise) (new : List Reaction)
    (tasks : List (Reaction × Value)) : Prop where
  before : s.promises.get? q = some p ∨ s.promises.get? q = none ∧ p = {}
  get? : ∀ b, s'.promises.get? b = if b = q then some p' else s.promises.get? b
  entries : ∃ es₁ old es₂, s.promises.entries = es₁ ++ old ++ es₂ ∧
    s'.promises.entries = es₁ ++ (q, p') :: es₂ ∧ (old = [(q, p)] ∨ old = [] ∧ p = {} ∧ s.promises.get? q = none)
  made : s'.Made q
  balance : (p'.reactions ++ tasks.map Prod.fst).Perm (new ++ p.reactions)
  keeps : ∀ w, p.value? = some w → p'.value? = some w
  settled : p'.value? ≠ none → p'.reactions = []
  current : ∀ t ∈ tasks, p'.value? = some t.2
  queued : s'.queued = s.queued ++ tasks
  fetching : s'.fetching = s.fetching
  lastId : s.lastId ≤ s'.lastId
  heap : ∀ b, s.heap.get? b = none → s'.heap.get? b = none

/-- Tasks were taken out of the queues, and responses asked for; the promises are as they were. -/
structure Shifts (s s' : State) (gone : List (Reaction × Value)) (asked : List Address) : Prop where
  promises : s'.promises = s.promises
  queued : s.queued.Perm (gone ++ s'.queued)
  fetching : ∀ b ∈ s'.fetching, b ∈ s.fetching ∨ b ∈ asked
  lastId : s.lastId ≤ s'.lastId
  fresh : ∀ n, s'.lastId < n → s.heap.get? (.array n) = none → s'.heap.get? (.array n) = none

variable {s s' : State} {a q : Address} {p p' : Promise} {tasks : List (Reaction × Value)}
  {new : List Reaction} {inputs slots : List Value} {hand : List Nat} {value : Option Value}

theorem mem_reactions {r : Reaction} :
    r ∈ s.reactions ↔ (∃ e ∈ s.promises.entries, r ∈ e.2.reactions) ∨ ∃ w, (r, w) ∈ s.queued := by
  simp only [reactions, registered, Dict.values, List.mem_append, List.mem_flatMap, List.mem_map]
  grind

theorem mem_entries {i : Nat} : i ∈ s.entries a ↔ .collect a i ∈ s.reactions := by
  constructor
  · intro h
    obtain ⟨r, hr, hi⟩ := List.mem_filterMap.mp h
    exact Reaction.target_of_slotIn hi ▸ hr
  · exact fun h ↦ List.mem_filterMap.mpr ⟨_, h, Reaction.slotIn_collect a i⟩

namespace Rewrites

theorem value?_before (h : s.Rewrites s' q p p' new tasks) : s.value? q = p.value? := by
  unfold value?
  rcases h.before with hq | ⟨hq, rfl⟩
  · rw [hq]
    rfl
  · rw [hq]
    rfl

theorem value?_eq (h : s.Rewrites s' q p p' new tasks) (b : Address) :
    s'.value? b = if b = q then p'.value? else s.value? b := by
  unfold value?
  rw [h.get?]
  split <;> rfl

theorem persists (h : s.Rewrites s' q p p' new tasks) (b : Address) (w : Value) (hb : s.value? b = some w) :
    s'.value? b = some w := by
  rw [h.value?_eq]
  split
  next hbq => exact h.keeps w (h.value?_before ▸ hbq ▸ hb)
  next => exact hb

theorem contains (h : s.Rewrites s' q p p' new tasks) {b : Address} (hb : s.promises.contains b = true) :
    s'.promises.contains b = true := by
  unfold Dict.contains at hb ⊢
  rw [h.get?]
  split
  · rfl
  · exact hb

theorem mem_entries (h : s.Rewrites s' q p p' new tasks) {e : Address × Promise} (he : e ∈ s'.promises.entries) :
    e = (q, p') ∨ e ∈ s.promises.entries := by
  obtain ⟨es₁, old, es₂, hs, hs', -⟩ := h.entries
  rw [hs'] at he
  rw [hs]
  simp only [List.mem_append, List.mem_cons] at he ⊢
  tauto

theorem mem_of_mem_reactions (h : s.Rewrites s' q p p' new tasks) {r : Reaction} (hr : r ∈ p.reactions) :
    (q, p) ∈ s.promises.entries := by
  obtain ⟨es₁, old, es₂, hs, -, rfl | ⟨-, rfl, -⟩⟩ := h.entries
  · rw [hs]
    simp
  · cases hr

theorem perm (h : s.Rewrites s' q p p' new tasks) : s'.reactions.Perm (new ++ s.reactions) := by
  obtain ⟨es₁, old, es₂, hs, hs', hold⟩ := h.entries
  have hreactions : (old.map Prod.snd).flatMap Promise.reactions = p.reactions := by
    rcases hold with rfl | ⟨rfl, rfl, -⟩
    · simp
    · rfl
  have hnew := Multiset.coe_eq_coe.mpr h.balance
  unfold reactions registered Dict.values
  rw [hs, hs', h.queued, ← Multiset.coe_eq_coe]
  simp only [List.map_append, List.map_cons, List.flatMap_append, List.flatMap_cons, hreactions,
    ← Multiset.coe_add] at hnew ⊢
  generalize (↑((es₁.map Prod.snd).flatMap Promise.reactions) : Multiset Reaction) = kept₁
  generalize (↑((es₂.map Prod.snd).flatMap Promise.reactions) : Multiset Reaction) = kept₂
  generalize (↑(s.queued.map Prod.fst) : Multiset Reaction) = queue
  calc
    _ = kept₁ + kept₂ + queue + (p'.reactions + ↑(tasks.map Prod.fst)) := by abel
    _ = kept₁ + kept₂ + queue + (new + p.reactions) := by rw [hnew]
    _ = _ := by abel

theorem perm_entries (h : s.Rewrites s' q p p' new tasks) (a : Address) :
    (s'.entries a).Perm (new.filterMap (Reaction.slotIn a) ++ s.entries a) := by
  have h := h.perm.filterMap (Reaction.slotIn a)
  rwa [List.filterMap_append] at h

theorem nodup (h : s.Rewrites s' q p p' new tasks) (hs : s.promises.keys.Nodup) : s'.promises.keys.Nodup := by
  obtain ⟨es₁, old, es₂, hentries, hentries', hold⟩ := h.entries
  unfold Dict.keys at hs ⊢
  rw [hentries', List.map_append, List.map_cons]
  rcases hold with rfl | ⟨rfl, -, hq⟩
  · rwa [hentries, List.append_assoc, List.singleton_append, List.map_append, List.map_cons] at hs
  · rw [Dict.get?_eq_none_iff] at hq
    unfold Dict.keys at hq
    rw [hentries, List.append_nil, List.map_append] at hs hq
    exact List.nodup_middle.mpr (List.nodup_cons.mpr ⟨hq, hs⟩)

theorem sane (h : s.Rewrites s' q p p' new tasks) (hs : s.Sane) (hmade : ∀ r ∈ new, s'.Made r.target) :
    s'.Sane where
  nodup := h.nodup hs.nodup
  keys e he := by
    rcases h.mem_entries he with rfl | he
    · exact h.made
    · exact (hs.keys e he).mono h.lastId
  fresh n hn := h.heap _ (hs.fresh n (h.lastId.trans_lt hn))
  settled e he := by
    rcases h.mem_entries he with rfl | he
    · exact h.settled
    · exact hs.settled e he
  reactions r hr := by
    rcases List.mem_append.mp (h.perm.mem_iff.mp hr) with hr | hr
    · exact hmade r hr
    · exact (hs.reactions r hr).mono h.lastId
  fetching b hb := (hs.fetching b (h.fetching ▸ hb)).mono h.lastId

/-- A slot leaves the hand when a reaction is made for it. -/
theorem tracks (h : s.Rewrites s' q p p' new tasks)
    (ht : s.Tracks a inputs (new.filterMap (Reaction.slotIn a) ++ hand))
    (hinputs : ∀ r ∈ new, r.target = a → ∃ i, r = .collect a i ∧ inputs[i]? = some (.promise q)) :
    s'.Tracks a inputs hand := by
  -- every reaction of the aggregate at the promise is for an input that is the promise
  have hinput (i : Nat) (hi : .collect a i ∈ p'.reactions ++ tasks.map Prod.fst) :
      inputs[i]? = some (.promise q) := by
    rcases List.mem_append.mp (h.balance.mem_iff.mp hi) with hi | hi
    · obtain ⟨j, hj, hinput⟩ := hinputs _ hi rfl
      cases hj
      exact hinput
    · exact ht.registered _ (h.mem_of_mem_reactions hi) i hi
  refine ⟨ht.made.mono h.lastId, ?_, fun e he i hi ↦ ?_, fun i w hw ↦ ?_, fun r hr hra ↦ ?_, ?_⟩
  · have hperm := (List.Perm.append_left hand (h.perm_entries a)).trans (List.perm_append_comm_assoc _ _ _)
    rw [hperm.nodup_iff, ← List.append_assoc]
    exact ht.nodup
  · rcases h.mem_entries he with rfl | he
    · exact hinput i (List.mem_append_left _ hi)
    · exact ht.registered e he i hi
  · rw [h.queued] at hw
    rcases List.mem_append.mp hw with hw | hw
    · obtain ⟨b, hb, hbw⟩ := ht.queued i w hw
      exact ⟨b, hb, h.persists b w hbw⟩
    · refine ⟨q, hinput i (List.mem_append_right _ (List.mem_map_of_mem hw)), ?_⟩
      rw [h.value?_eq, if_pos rfl]
      exact h.current _ hw
  · rcases List.mem_append.mp (h.perm.mem_iff.mp hr) with hr | hr
    · obtain ⟨i, hi, -⟩ := hinputs r hr hra
      exact ⟨i, hi⟩
    · exact ht.alone r hr hra
  · rw [h.fetching]
    exact ht.fetching

theorem filled (h : s.Rewrites s' q p p' new tasks)
    (hst : s.Stores a inputs (new.filterMap (Reaction.slotIn a) ++ hand) value slots)
    (i : Nat) (v : Value) (hv : inputs[i]? = some v) (hhand : i ∉ hand) (hi : i ∉ s'.entries a) :
    ∃ w, slots[i]? = some w ∧ s'.Delivers v w := by
  rw [(h.perm_entries a).mem_iff, List.mem_append, not_or] at hi
  have hhand : i ∉ new.filterMap (Reaction.slotIn a) ++ hand := fun h ↦ (List.mem_append.mp h).elim hi.1 hhand
  obtain ⟨w, hw, hd⟩ := hst.filled i v hv hhand hi.2
  exact ⟨w, hw, hd.mono h.persists⟩

theorem length_entries (h : s.Rewrites s' q p p' new tasks) (a : Address) :
    (s'.entries a).length = (new.filterMap (Reaction.slotIn a)).length + (s.entries a).length := by
  rw [(h.perm_entries a).length_eq, List.length_append]

/-- The aggregate's own record is another one, or has the same values. -/
theorem stores (h : s.Rewrites s' q p p' new tasks)
    (hst : s.Stores a inputs (new.filterMap (Reaction.slotIn a) ++ hand) value slots)
    (hrecord : q = a → p'.value? = p.value? ∧ p'.slots = p.slots ∧ p'.remaining = p.remaining) :
    s'.Stores a inputs hand value slots := by
  refine ⟨?_, hst.length, h.filled hst⟩
  obtain ⟨p₀, hget, hvalue₀, hslots, hremaining⟩ := hst.stored
  have hcount := h.length_entries a
  rw [List.length_append] at hremaining
  rw [h.get?]
  by_cases haq : a = q
  · subst haq
    obtain ⟨hv, hs, hr⟩ := hrecord rfl
    have hp : p = p₀ := by
      rcases h.before with hp | ⟨hp, -⟩
      · exact Option.some.inj (hp.symm.trans hget)
      · cases hp.symm.trans hget
    subst hp
    refine ⟨p', if_pos rfl, hv.trans hvalue₀, hs.trans hslots, ?_⟩
    omega
  · refine ⟨p₀, (if_neg haq).trans hget, hvalue₀, hslots, ?_⟩
    omega

theorem ledger (h : s.Rewrites s' q p p' new tasks)
    (hl : s.Ledger a inputs (new.filterMap (Reaction.slotIn a) ++ hand) value slots)
    (hinputs : ∀ r ∈ new, r.target = a → ∃ i, r = .collect a i ∧ inputs[i]? = some (.promise q))
    (hrecord : q = a → p'.value? = p.value? ∧ p'.slots = p.slots ∧ p'.remaining = p.remaining) :
    s'.Ledger a inputs hand value slots :=
  ⟨h.tracks hl.tracks hinputs, h.stores hl.stores hrecord⟩

end Rewrites

theorem Ledger.fill {i : Nat} {v w : Value} (hl : s.Ledger a inputs (i :: hand) value slots)
    (hv : inputs[i]? = some v) (hd : s.Delivers v w) (hp : s.promises.get? a = some p)
    (h : s.Rewrites s' a p { p with slots := p.slots.set i w, remaining := p.remaining - 1 } [] []) :
    s'.Ledger a inputs hand value (slots.set i w) := by
  have htracks := h.tracks hl.tracks (List.forall_mem_nil _)
  refine ⟨{ htracks with nodup := (List.nodup_cons.mp htracks.nodup).2 }, ?_, ?_, fun j u hu hhand hj ↦ ?_⟩
  · obtain ⟨p₀, hget, hvalue₀, hslots, hremaining⟩ := hl.stores.stored
    cases hp.symm.trans hget
    have hcount := h.length_entries a
    refine ⟨_, (h.get? a).trans (if_pos rfl), hvalue₀, congrArg (·.set i w) hslots, ?_⟩
    simp only [List.length_cons, List.filterMap_nil, List.length_nil] at hremaining hcount ⊢
    omega
  · exact (List.length_set).trans hl.stores.length
  · by_cases hij : i = j
    · subst hij
      cases hv.symm.trans hu
      have hlt : i < slots.length := by
        rw [hl.stores.length]
        exact (List.getElem?_eq_some_iff.mp hu).1
      exact ⟨w, List.getElem?_set_self hlt, hd.mono h.persists⟩
    · have hcons : j ∉ i :: hand := fun h ↦ (List.mem_cons.mp h).elim (fun h ↦ hij h.symm) hhand
      rw [List.getElem?_set_ne hij]
      exact h.filled hl.stores j u hu hcons hj

theorem Ledger.settle {w : Value} (hl : s.Ledger a inputs hand none slots) (hp : s.promises.get? a = some p)
    (h : s.Rewrites s' a p { p with value? := some w, reactions := [] } [] (p.reactions.map (·, w))) :
    s'.Ledger a inputs hand (some w) slots := by
  obtain ⟨p₀, hget, hvalue₀, hslots, hremaining⟩ := hl.stores.stored
  cases hp.symm.trans hget
  refine ⟨h.tracks hl.tracks (List.forall_mem_nil _), ?_, hl.stores.length, h.filled hl.stores⟩
  have hcount := h.length_entries a
  refine ⟨_, (h.get? a).trans (if_pos rfl), rfl, hslots, ?_⟩
  simp only [List.filterMap_nil, List.length_nil] at hcount ⊢
  omega

namespace Shifts

variable {gone : List (Reaction × Value)} {asked : List Address}

theorem value?_eq (h : s.Shifts s' gone asked) (b : Address) : s'.value? b = s.value? b := by
  unfold value?
  rw [h.promises]

theorem perm (h : s.Shifts s' gone asked) : s.reactions.Perm (gone.map Prod.fst ++ s'.reactions) := by
  have hqueued := h.queued.map Prod.fst
  rw [List.map_append] at hqueued
  unfold reactions registered
  rw [h.promises]
  exact (List.Perm.append_left _ hqueued).trans (List.perm_append_comm_assoc _ _ _)

theorem perm_entries (h : s.Shifts s' gone asked) (a : Address) :
    (s.entries a).Perm ((gone.map Prod.fst).filterMap (Reaction.slotIn a) ++ s'.entries a) := by
  have hperm := h.perm.filterMap (Reaction.slotIn a)
  rwa [List.filterMap_append] at hperm

theorem sane (h : s.Shifts s' gone asked) (hs : s.Sane) (hasked : ∀ b ∈ asked, s'.Made b) : s'.Sane where
  nodup := h.promises.symm ▸ hs.nodup
  keys e he := (hs.keys e (h.promises ▸ he)).mono h.lastId
  fresh n hn := h.fresh n hn (hs.fresh n (h.lastId.trans_lt hn))
  settled e he := hs.settled e (h.promises ▸ he)
  reactions r hr := (hs.reactions r (h.perm.mem_iff.mpr (List.mem_append_right _ hr))).mono h.lastId
  fetching b hb := by
    rcases h.fetching b hb with hb | hb
    · exact (hs.fetching b hb).mono h.lastId
    · exact hasked b hb

/-- The slots whose tasks were taken are at hand. -/
theorem tracks (h : s.Shifts s' gone asked) (ht : s.Tracks a inputs hand) (hasked : a ∉ asked) :
    s'.Tracks a inputs ((gone.map Prod.fst).filterMap (Reaction.slotIn a) ++ hand) where
  made := ht.made.mono h.lastId
  nodup := by
    have hperm := (List.Perm.append_left hand (h.perm_entries a)).trans (List.perm_append_comm_assoc _ _ _)
    rw [List.append_assoc, ← hperm.nodup_iff]
    exact ht.nodup
  registered e he := ht.registered e (h.promises ▸ he)
  queued i w hw := by
    obtain ⟨b, hb, hbw⟩ := ht.queued i w (h.queued.mem_iff.mpr (List.mem_append_right _ hw))
    exact ⟨b, hb, (h.value?_eq b).trans hbw⟩
  alone r hr := ht.alone r (h.perm.mem_iff.mpr (List.mem_append_right _ hr))
  fetching ha := (h.fetching a ha).elim ht.fetching hasked

theorem stores (h : s.Shifts s' gone asked) (hst : s.Stores a inputs hand value slots) :
    s'.Stores a inputs ((gone.map Prod.fst).filterMap (Reaction.slotIn a) ++ hand) value slots := by
  obtain ⟨p, hget, hvalue, hslots, hremaining⟩ := hst.stored
  refine ⟨⟨p, h.promises ▸ hget, hvalue, hslots, ?_⟩, hst.length, fun i v hv hhand hi ↦ ?_⟩
  · have hcount := (h.perm_entries a).length_eq
    rw [List.length_append] at hcount ⊢
    omega
  · rw [List.mem_append, not_or] at hhand
    have hentries : i ∉ s.entries a := by
      rw [(h.perm_entries a).mem_iff, List.mem_append, not_or]
      exact ⟨hhand.1, hi⟩
    obtain ⟨w, hw, hd⟩ := hst.filled i v hv hhand.2 hentries
    exact ⟨w, hw, hd.mono fun b w hb ↦ (h.value?_eq b).trans hb⟩

theorem ledger (h : s.Shifts s' gone asked) (hl : s.Ledger a inputs hand value slots) (hasked : a ∉ asked) :
    s'.Ledger a inputs ((gone.map Prod.fst).filterMap (Reaction.slotIn a) ++ hand) value slots :=
  ⟨h.tracks hl.tracks hasked, h.stores hl.stores⟩

end Shifts

end State

end Stepwise
