import Stepwise.Proofs.Promise.History
import Stepwise.Proofs.Promise.Serving
/-!
The books of promises of every kind: how far each of them has got, by what waits for it and by what
has been noted down of it.
-/

namespace Stepwise

/-- The call of a handler, if there is one. -/
def Event.beginning (handler : Option Function) (d : Address) (v : Value) : List Event :=
  handler.toList.map (.began · d v)

namespace Event

variable {handler : Option Function} {d : Address} {v : Value} {e : Event}

theorem mem_beginning (h : e ∈ beginning handler d v) : ∃ f, handler = some f ∧ e = .began f d v := by
  obtain ⟨f, hf, rfl⟩ := List.mem_map.mp h
  exact ⟨f, Option.mem_toList.mp hf, rfl⟩

theorem eq_of_concluded_mem {result : Value} (h : .concluded d result ∈ beginning handler d v ++ [e]) :
    e = .concluded d result := by
  rcases List.mem_append.mp h with h | h
  · obtain ⟨f, -, heq⟩ := mem_beginning h
    cases heq
  · exact (List.mem_singleton.mp h).symm

end Event

namespace State

/-- A derived promise has got a result: it has a value, or the promise that the result is has none
yet. -/
def Pursues (s : State) (d : Address) : Value → Prop
  | .promise q => s.Sole d q (.adopt d) ∨ s.reactionsFor d = [] ∧ s.value? d ≠ none ∧ s.value? q ≠ none
  | _ => s.reactionsFor d = [] ∧ s.value? d ≠ none

/-- How far a derived promise has got, by the events of its handler and the number of calls of it that
are in progress. -/
inductive Chained (s : State) (p : Address) (handler : Option Function) (d : Address) : List Event → Nat → Prop
  | waiting (h : s.Sole d p (.handle handler d)) : Chained s p handler d [] 0
  | running {f : Function} {v : Value} (hf : handler = some f) (hv : s.value? p = some v)
      (hnone : s.reactionsFor d = []) : Chained s p handler d [.began f d v] 1
  | failed {v : Value} (hv : s.value? p = some v) (hnone : s.reactionsFor d = []) :
      Chained s p handler d (Event.beginning handler d v ++ [.failed d]) 0
  | concluded {v result : Value} (hv : s.value? p = some v) (hresult : handler = none → result = v)
      (h : s.Pursues d result) : Chained s p handler d (Event.beginning handler d v ++ [.concluded d result]) 0

/-- Where the value of a derived promise comes from. -/
def Stems (s : State) (d : Address) (events : List Event) : Prop :=
  ∀ w, s.value? d = some w → .settled d w ∈ events ∨ ∃ result, .concluded d result ∈ events ∧ s.Delivers result w

/-- The books of a derived promise. -/
structure Derives (s : State) (p : Address) (handler : Option Function) (d : Address) (events : List Event)
    (running : Nat) : Prop where
  known : s.promises.contains d = true
  fetching : d ∉ s.fetching
  chained : s.Chained p handler d (Event.progress d events) running
  stems : s.Stems d events

/-- The books of a race: while it has no value, it waits for each of its inputs. -/
structure Races (s : State) (a : Address) (inputs : List Value) : Prop where
  known : s.promises.contains a = true
  fetching : a ∉ s.fetching
  serves : s.Serves a fun q r ↦ r = .race a ∧ .promise q ∈ inputs
  pending : s.value? a = none → ∀ v ∈ inputs, ∃ q, v = .promise q ∧ s.Awaits q (.race a)
  settled : s.value? a ≠ none → ∃ v ∈ inputs, ∃ w, s.Delivers v w

/-- The books of a response: while it has no value, it is still to come. -/
structure Expects (s : State) (a : Address) : Prop where
  known : s.promises.contains a = true
  nobody : s.reactionsFor a = []
  pending : s.value? a = none → a ∈ s.fetching

/-- The books of a promise, by the operation that gave it. Only derived promises are kept account of
when they are settled from outside. -/
def Books (s : State) (a : Address) (events : List Event) (running : Nat) : Operation → Prop
  | .chain p handler => s.Derives p handler a events running
  | .all inputs => (∀ v, .settled a v ∉ events) → running = 0 ∧ s.Gathers a inputs
  | .race inputs => (∀ v, .settled a v ∉ events) → running = 0 ∧ s.Races a inputs
  | .fetch _ _ => (∀ v, .settled a v ∉ events) → running = 0 ∧ s.Expects a
  | .create | .settle _ _ => True

variable {s s' : State} {a d p q : Address} {handler g : Option Function} {events new : List Event} {n : Nat}
  {r : Reaction} {v result : Value} {record record' : Promise} {new' : List Reaction} {tasks : List (Reaction × Value)}
  {inputs : List Value} {operation : Operation}

/-- What a derived promise has, it keeps. -/
structure Upholds (s s' : State) (d : Address) : Prop where
  sole : ∀ {q r}, s.Sole d q r → s'.Sole d q r
  nobody : s.reactionsFor d = [] → s'.reactionsFor d = []
  persists : ∀ {b w}, s.value? b = some w → s'.value? b = some w

theorem Upholds.ne_none {b : Address} (h : s.Upholds s' d) (hb : s.value? b ≠ none) : s'.value? b ≠ none := by
  obtain ⟨w, hw⟩ := Option.ne_none_iff_exists'.mp hb
  rw [h.persists hw]
  exact Option.some_ne_none w

theorem Rewrites.upholds (h : s.Rewrites s' q record record' new' tasks) (hnew : ∀ r ∈ new', r.target ≠ d) :
    s.Upholds s' d where
  sole := h.keeps_sole hnew
  nobody hnone := List.perm_nil.mp (hnone ▸ h.keeps_reactionsFor hnew)
  persists := h.persists _ _

theorem Pursues.mono (hp : s.Pursues d result) (h : s.Upholds s' d) : s'.Pursues d result := by
  cases result with
  | promise q => exact hp.imp h.sole (.imp h.nobody (.imp h.ne_none h.ne_none))
  | _ => exact .imp h.nobody h.ne_none hp

theorem Chained.mono (hc : s.Chained p handler d events n) (h : s.Upholds s' d) :
    s'.Chained p handler d events n := by
  cases hc with
  | waiting hsole => exact .waiting (h.sole hsole)
  | running hf hv hnone => exact .running hf (h.persists hv) (h.nobody hnone)
  | failed hv hnone => exact .failed (h.persists hv) (h.nobody hnone)
  | concluded hv hresult hp => exact .concluded (h.persists hv) hresult (hp.mono h)

namespace Steady

theorem of_upholds {B : State → Prop} (hB : ∀ s s', s.Upholds s' a → B s → B s') : Steady a B where
  rewrites _ h hnew _ := hB _ _ (h.upholds hnew)
  shifts h hgone hasked hkept := hB _ _
    ⟨(sole a _ _).shifts h hgone hasked hkept, (reactionsFor_eq_nil a).shifts h hgone hasked hkept,
      (has_value a _ _).shifts h hgone hasked hkept⟩

theorem of_value? {B : Option Value → State → Prop} (hB : ∀ value, Steady a (B value)) :
    Steady a fun s ↦ B (s.value? a) s := by
  refine (ex fun value ↦ (value? a value).and (hB value)).congr fun s ↦ ?_
  exact ⟨fun ⟨_, h, hB⟩ ↦ h ▸ hB, fun hB ↦ ⟨_, rfl, hB⟩⟩

theorem stems (d : Address) (events : List Event) : Steady d fun s ↦ s.Stems d events :=
  of_value? (B := fun value s ↦ ∀ w, value = some w →
      .settled d w ∈ events ∨ ∃ result, .concluded d result ∈ events ∧ s.Delivers result w) fun _ ↦
    all fun w ↦ all fun _ ↦ (const _).or (ex fun result ↦ (const _).and (delivers d result w))

theorem derives (p : Address) (handler : Option Function) (d : Address) (events : List Event) (n : Nat) :
    Steady d fun s ↦ s.Derives p handler d events n := by
  have hchained : Steady d fun s ↦ s.Chained p handler d (Event.progress d events) n :=
    of_upholds fun _ _ h hc ↦ hc.mono h
  refine ((contains d d).and ((not_fetching d).and (hchained.and (stems d events)))).congr fun s ↦ ?_
  exact ⟨fun ⟨h₁, h₂, h₃, h₄⟩ ↦ ⟨h₁, h₂, h₃, h₄⟩, fun h ↦ ⟨h.known, h.fetching, h.chained, h.stems⟩⟩

theorem gathers (a : Address) (inputs : List Value) : Steady a fun s ↦ s.Gathers a inputs := by
  have hentries (value : Option Value) : Steady a fun s ↦ (value = none ↔ s.entries a ≠ []) := by
    -- steps of others may change the order of the open slots, so that only emptiness can be said of them
    refine (ex fun is ↦ (steady_entries a is).and (const (value = none ↔ is ≠ []))).congr fun s ↦ ?_
    refine ⟨fun ⟨is, hperm, h⟩ ↦ h.trans (not_congr ⟨fun his ↦ ?_, fun hnil ↦ ?_⟩), fun h ↦ ⟨_, .refl _, h⟩⟩
    · exact (his ▸ hperm).eq_nil
    · exact (hnil ▸ hperm).symm.eq_nil
  exact ex fun value ↦ ex fun slots ↦ (steady_ledger a inputs [] value slots).and (hentries value)

theorem races (a : Address) (inputs : List Value) : Steady a fun s ↦ s.Races a inputs := by
  have hpending : Steady a fun s ↦ s.value? a = none → ∀ v ∈ inputs, ∃ q, v = .promise q ∧ s.Awaits q (.race a) :=
    of_value? (B := fun value s ↦ value = none → ∀ v ∈ inputs, ∃ q, v = .promise q ∧ s.Awaits q (.race a)) fun _ ↦
      all fun _ ↦ all fun v ↦ all fun _ ↦ ex fun q ↦ (const _).and (awaits (r := .race a) rfl q)
  have hsettled : Steady a fun s ↦ s.value? a ≠ none → ∃ v ∈ inputs, ∃ w, s.Delivers v w :=
    of_value? (B := fun value s ↦ value ≠ none → ∃ v ∈ inputs, ∃ w, s.Delivers v w) fun _ ↦
      all fun _ ↦ ex fun v ↦ (const _).and (ex fun w ↦ delivers a v w)
  have hserves := serves a fun q r ↦ r = .race a ∧ .promise q ∈ inputs
  refine ((contains a a).and ((not_fetching a).and (hserves.and (hpending.and hsettled)))).congr fun s ↦ ?_
  exact ⟨fun ⟨h₁, h₂, h₃, h₄, h₅⟩ ↦ ⟨h₁, h₂, h₃, h₄, h₅⟩,
    fun h ↦ ⟨h.known, h.fetching, h.serves, h.pending, h.settled⟩⟩

theorem expects (a : Address) : Steady a fun s ↦ s.Expects a := by
  have hpending : Steady a fun s ↦ s.value? a = none → a ∈ s.fetching :=
    of_value? (B := fun value s ↦ value = none → a ∈ s.fetching) fun _ ↦ all fun _ ↦ fetching a
  refine ((contains a a).and ((reactionsFor_eq_nil a).and hpending)).congr fun s ↦ ?_
  exact ⟨fun ⟨h₁, h₂, h₃⟩ ↦ ⟨h₁, h₂, h₃⟩, fun h ↦ ⟨h.known, h.nobody, h.pending⟩⟩

theorem books (a : Address) (events : List Event) (n : Nat) (operation : Operation) :
    Steady a fun s ↦ s.Books a events n operation := by
  cases operation with
  | chain p handler => exact derives p handler a events n
  | all inputs => exact all fun _ ↦ (const _).and (gathers a inputs)
  | race inputs => exact all fun _ ↦ (const _).and (races a inputs)
  | fetch url line => exact all fun _ ↦ (const _).and (expects a)
  | create => exact const True
  | settle q v => exact const True

end Steady

end State

end Stepwise
