import Stepwise.Proofs.Value.Counting
import Mathlib.Algebra.Order.BigOperators.Group.Finset
/-!
The places that hold a reference: variables of scopes that are open or captured, what is stored, and the
values of promises. Work on stored data keeps count of them.
-/

namespace Stepwise

/-- The value that a promise was settled with, if it was. -/
def Promise.settlement (p : Promise) : List Value := p.value?.toList

theorem Promise.settlement_of_none {p : Promise} (h : p.value? = none) : p.settlement = [] := congrArg Option.toList h

theorem Promise.settlement_of_some {p : Promise} {v : Value} (h : p.value? = some v) : p.settlement = [v] :=
  congrArg Option.toList h

namespace State

variable {s t : State} {a : Address}

/-- The scopes that are open or captured, each of them once. -/
def liveIds (s : State) : Finset Nat := (s.chain ++ s.captured).toFinset

/-- How many variables of a scope refer to an address. -/
def boundIn (s : State) (a : Address) (id : Nat) : Nat :=
  (s.scope? id).elim 0 fun scope ↦ a.countIn scope.bindings.values

/-- How many variables of scopes that are open or captured do. -/
def bound (s : State) (a : Address) : Nat := ∑ id ∈ s.liveIds, s.boundIn a id

/-- How many references there are in the heap, and in the values of promises. -/
def stored (s : State) (a : Address) : Nat :=
  s.heap.count a + a.countHeld Promise.settlement s.promises

/-- The places that hold a reference to an address. -/
def places (s : State) (a : Address) : Nat := s.bound a + s.stored a

/-- No reference goes uncounted. -/
def Covered (s : State) : Prop := ∀ a n, s.heap.references? a = some n → s.places a ≤ n

/-- References are counted that are bound outside of the heap and of promises, and those in there. -/
structure Tallied (outside : Address → Nat) (s : State) : Prop where
  covered : ∀ a n, s.heap.references? a = some n → outside a + s.stored a ≤ n
  outside_eq : ∀ a, ¬a.Below s.lastId → outside a = 0
  heap : s.heap.Made s.lastId
  promises : ∀ p ∈ s.promises.values, AllMade s.lastId (p.settlement ++ p.slots)
  tasks : ∀ task ∈ s.tasks, AllMade s.lastId task.job.values

namespace Tallied

variable {outside : Address → Nat} {n : Nat}

theorem stored_eq (h : s.Tallied outside) (ha : ¬a.Below s.lastId) : s.stored a = 0 := by
  have hheap : s.heap.count a = 0 := Address.countHeld_eq_zero h.heap ha
  have hpromises : a.countHeld Promise.settlement s.promises = 0 :=
    Address.countHeld_eq_zero (fun p hp v hv ↦ h.promises p hp v (List.mem_append_left _ hv)) ha
  rw [stored, hheap, hpromises]

theorem mono {outside' : Address → Nat} (h : s.Tallied outside) (hle : ∀ a, outside' a ≤ outside a) :
    s.Tallied outside' where
  covered a n hn := (Nat.add_le_add_right (hle a) _).trans (h.covered a n hn)
  outside_eq a ha := Nat.eq_zero_of_le_zero ((hle a).trans_eq (h.outside_eq a ha))
  heap := h.heap
  promises := h.promises
  tasks := h.tasks

theorem withScoping (h : s.Tallied outside) (u : State) : (s.withScoping u).Tallied outside :=
  ⟨h.covered, h.outside_eq, h.heap, h.promises, h.tasks⟩

theorem withLastId (h : s.Tallied outside) (hn : s.lastId ≤ n) : { s with lastId := n }.Tallied outside where
  covered := h.covered
  outside_eq a ha := h.outside_eq a fun hb ↦ ha (hb.mono hn)
  heap cell hcell v hv := (h.heap cell hcell v hv).mono hn
  promises p hp v hv := (h.promises p hp v hv).mono hn
  tasks task htask v hv := (h.tasks task htask v hv).mono hn

/-- One value stands in the place of another outside, which is released while the new one is retained. -/
theorem rebound {outside' : Address → Nat} {old v : Value} (h : s.Tallied outside) (hv : v.Made s.lastId)
    (hcount : ∀ a, outside' a + a.countIn [old] = outside a + a.countIn [v]) :
    { s with heap := (s.heap.release old).retain v }.Tallied outside' where
  covered a n hn := by
    change Heap.references? _ a = some n at hn
    rw [Heap.references?_retain, Heap.references?_release, Option.map_map] at hn
    obtain ⟨m, hm, rfl⟩ := Option.map_eq_some_iff.mp hn
    have hcovered := h.covered a m hm
    have hbound := hcount a
    unfold stored at hcovered ⊢
    dsimp only [Function.comp_apply]
    rw [Heap.count_retain, Heap.count_release]
    omega
  outside_eq a ha := by
    have hbound := hcount a
    rw [h.outside_eq a ha, Address.countIn_eq_zero (List.forall_mem_singleton.mpr hv) ha] at hbound
    omega
  heap := (h.heap.release old).retain v
  promises := h.promises
  tasks := h.tasks

theorem store {b : Address} {cell : Cell} {vs : List Value} (h : s.Tallied outside) (hb : ¬b.Below s.lastId)
    (hvs : AllMade s.lastId vs) (hcell : cell.held = vs) :
    { s with lastId := s.lastId + 1, heap := s.heap.store b cell vs }.Tallied outside where
  covered a n hn := by
    have hset : Heap.count (s.heap.set b cell) a + _ = s.heap.count a + a.countIn cell.held :=
      Address.countHeld_set Cell.held s.heap b cell
    have hstored : { s with lastId := s.lastId + 1, heap := s.heap.store b cell vs }.stored a ≤ s.stored a + a.countIn vs := by
      unfold stored Heap.store
      dsimp only
      rw [Heap.count_retains]
      rw [hcell] at hset
      omega
    change (vs.foldl Heap.retain (s.heap.set b cell)).references? a = some n at hn
    rw [Heap.references?_retains, Heap.references?_set] at hn
    by_cases hab : a = b
    · have houtside := h.outside_eq a (hab ▸ hb)
      have hnone := h.stored_eq (hab ▸ hb)
      have hcount := Address.countIn_eq_zero hvs (hab ▸ hb)
      omega
    · rw [if_neg hab] at hn
      obtain ⟨m, hm, rfl⟩ := Option.map_eq_some_iff.mp hn
      have hcovered := h.covered a m hm
      omega
  outside_eq := (h.withLastId (Nat.le_succ _)).outside_eq
  heap := (h.withLastId (Nat.le_succ _)).heap.store b vs fun v hv ↦ (hvs v (hcell ▸ hv)).mono (Nat.le_succ _)
  promises := (h.withLastId (Nat.le_succ _)).promises
  tasks := (h.withLastId (Nat.le_succ _)).tasks

theorem rebind {b : Address} {g : Cell → Cell} {cell : Cell} {old v : Value} (h : s.Tallied outside)
    (hcell : s.heap.get? b = some cell) (hg : ∀ cell, (g cell).references = cell.references)
    (hcount : ∀ (a : Address) (n : Nat),
      a.countIn (g { cell with references := n }).held + a.countIn [old] = a.countIn cell.held + a.countIn [v])
    (hmade : (((s.heap.release old).update b g).retain v).Made s.lastId) :
    { s with heap := ((s.heap.release old).update b g).retain v }.Tallied outside where
  covered a n hn := by
    have hcounts := Heap.count_rebind hcell (hcount a)
    change Heap.references? _ a = some n at hn
    rw [Heap.references?_rebind hg] at hn
    obtain ⟨m, hm, rfl⟩ := Option.map_eq_some_iff.mp hn
    have hcovered := h.covered a m hm
    unfold stored at hcovered ⊢
    dsimp only
    omega
  outside_eq := h.outside_eq
  heap := hmade
  promises := h.promises
  tasks := h.tasks

theorem setElement {b : Address} {cell : Cell} {v : Value} (h : s.Tallied outside) (hcell : s.heap.get? b = some cell)
    (index : Nat) (hv : v.Made s.lastId) : { s with heap := s.heap.setElement b cell index v }.Tallied outside := by
  let elements : List Value := cell.elements ++ List.replicate (index + 1 - cell.elements.length) .undefined
  have hlength : index < elements.length := by
    rw [List.length_append, List.length_replicate]
    omega
  have hmade : (s.heap.setElement b cell index v).Made s.lastId :=
    h.heap.setElement trivial index (h.heap cell (Dict.mem_values_of_get? hcell)) hv
  refine h.rebind hcell (fun _ ↦ rfl) (fun a n ↦ ?_) hmade
  have hset := Address.countIn_set (a := a) hlength v
  have helements : a.countIn elements = a.countIn cell.elements := by
    rw [Address.countIn_append, Address.countIn_undefined, Nat.add_zero]
  unfold Cell.held
  dsimp only
  rw [Address.countIn_append, Address.countIn_append]
  change _ + a.countIn (elements.set index v) + a.countIn [elements.getD index .undefined] = _
  omega

theorem setField {b : Address} {cell : Cell} {v : Value} (h : s.Tallied outside) (hcell : s.heap.get? b = some cell)
    (key : Text) (hv : v.Made s.lastId) : { s with heap := s.heap.setField b cell key v }.Tallied outside := by
  have hmade : (s.heap.setField b cell key v).Made s.lastId := h.heap.setField key hv
  refine h.rebind hcell (fun _ ↦ rfl) (fun a n ↦ ?_) hmade
  have hset := Address.countIn_values_set (a := a) cell.fields key v
  unfold Cell.held
  dsimp only
  rw [Address.countIn_append, Address.countIn_append]
  omega

theorem setProperty {receiver v : Value} {key : Text} {heap : Heap} (h : s.Tallied outside) (hv : v.Made s.lastId)
    (hset : s.heap.setProperty receiver key v = .ok heap) : { s with heap }.Tallied outside := by
  obtain rfl | ⟨b, cell, hcell, ⟨index, rfl⟩ | rfl⟩ := Heap.setProperty_cases hset
  · exact h
  · exact h.setElement hcell index hv
  · exact h.setField hcell key hv

theorem modifyPromise {f : Promise → Promise} (h : s.Tallied outside) (b : Address)
    (hsettlement : ∀ p, (f p).settlement = p.settlement)
    (hslots : ∀ p, AllMade s.lastId p.slots → AllMade s.lastId (f p).slots) :
    { s with promises := s.promises.modify b f }.Tallied outside where
  covered a n hn := by
    have hheld : a.countHeld Promise.settlement (s.promises.modify b f) = _ :=
      Address.countHeld_modify_of_eq s.promises b hsettlement
    have hcovered := h.covered a n hn
    unfold stored at hcovered ⊢
    dsimp only
    rwa [hheld]
  outside_eq := h.outside_eq
  heap := h.heap
  promises p hp := by
    rcases Dict.mem_values_of_mem_values_modify hp with ⟨old, hold, rfl⟩ | hp
    · obtain ⟨hv, hs⟩ := List.forall_mem_append.mp (h.promises old (Dict.mem_values_of_get? hold))
      exact List.forall_mem_append.mpr ⟨hsettlement old ▸ hv, hslots old hs⟩
    · exact h.promises p hp
  tasks := h.tasks

theorem settle {b : Address} {p : Promise} {v : Value} (h : s.Tallied outside) (hp : s.promises.get? b = some p)
    (hpending : p.value? = none) (hv : v.Made s.lastId) : { s with
      promises := s.promises.modify b fun p ↦ { p with value? := some v, reactions := [] }
      heap := s.heap.retain v }.Tallied outside where
  covered a n hn := by
    have hheld := Address.countHeld_modify (a := a) Promise.settlement s.promises b
      fun p ↦ { p with value? := some v, reactions := [] }
    rw [hp, Option.elim_some, Option.elim_some] at hheld
    dsimp only [Function.comp_apply] at hheld
    rw [Promise.settlement_of_none hpending, Promise.settlement_of_some rfl] at hheld
    change (s.heap.retain v).references? a = some n at hn
    rw [Heap.references?_retain] at hn
    obtain ⟨m, hm, rfl⟩ := Option.map_eq_some_iff.mp hn
    have hcovered := h.covered a m hm
    unfold stored at hcovered ⊢
    dsimp only
    rw [Heap.count_retain]
    have hnil : a.countIn [] = 0 := rfl
    omega
  outside_eq := h.outside_eq
  heap := h.heap.retain v
  promises q hq := by
    rcases Dict.mem_values_of_mem_values_modify hq with ⟨old, hold, rfl⟩ | hq
    · obtain ⟨-, hs⟩ := List.forall_mem_append.mp (h.promises old (Dict.mem_values_of_get? hold))
      exact List.forall_mem_cons.mpr ⟨hv, hs⟩
    · exact h.promises q hq
  tasks := h.tasks

theorem createPromise (h : s.Tallied outside) (b : Address) :
    { s with lastId := s.lastId + 1, promises := s.promises.set b {} }.Tallied outside where
  covered a n hn := by
    have hheld := Address.countHeld_set (a := a) Promise.settlement s.promises b {}
    have hnil : a.countIn (Promise.settlement {}) = 0 := rfl
    have hcovered := h.covered a n hn
    unfold stored at hcovered ⊢
    dsimp only at hheld ⊢
    omega
  outside_eq := (h.withLastId (Nat.le_succ _)).outside_eq
  heap := (h.withLastId (Nat.le_succ _)).heap
  promises p hp := by
    rcases Dict.mem_values_of_mem_values_set hp with rfl | hp
    · exact List.forall_mem_nil _
    · exact (h.withLastId (Nat.le_succ _)).promises p hp
  tasks := (h.withLastId (Nat.le_succ _)).tasks

theorem withLoop {loop : EventLoop} (h : s.Tallied outside)
    (hloop : ∀ task ∈ { s with loop }.tasks, AllMade s.lastId task.job.values) : { s with loop }.Tallied outside :=
  ⟨h.covered, h.outside_eq, h.heap, h.promises, hloop⟩

end Tallied

end State

end Stepwise
