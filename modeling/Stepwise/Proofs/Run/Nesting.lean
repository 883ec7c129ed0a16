import Stepwise.Proofs.Run.Naming
/-!
Blocks, loops and calls keep runs on lexical states together: they open scopes inside of the
visible ones and close them again.
-/

namespace Stepwise.Correspondence.Scoping

open State Engine Evaluator Activity

variable {exact : Prop} {p : Machines} {k : Stretch} {s t : State}

theorem ne_lastId_succ (hs : s.Lexical) : ∀ scope ∈ s.scopes, scope.id ≠ s.lastId + 1 := by
  intro scope hscope hid
  cases hfind : s.scope? scope.id with
  | none =>
    have hnone := List.find?_eq_none.mp hfind scope hscope
    simp at hnone
  | some old =>
    have hle := hs.fresh scope.id old hfind
    omega

/-- A scope and perhaps a call are left behind, and the open scopes are what they were before. -/
theorem lexical_close {r : State} {scope : Scope} {frames frames' : List Frame} {l : Stretch}
    (hs : s.Lexical) (hr : r.Lexical) (hid : s.lastId < scope.id)
    (hm : (s.openScope scope s.chain frames').Moves k r)
    (hshape : frames.map Frame.shape = s.frames.map Frame.shape)
    (hkeep : l = .expression ∨ s.frames ≠ [] → frames' ≠ []) :
    { r with chain := s.chain, frames }.Lexical ∧ s.Moves l { r with chain := s.chain, frames } ∧
      ∀ f, r.Captures f → { r with chain := s.chain, frames }.Captures f := by
  have hp : s.Persists r := (persists_openScope hs hid).trans hm.persists
  have hg : r.globalId? = s.globalId? := hm.global.trans (globalId?_openScope hs.stacked.ne_nil)
  have hc (hk : l = .expression ∨ s.frames ≠ []) : s.captured ⊆ r.captured := hm.captured (.inr (hkeep hk))
  have htail : r.chain.tail = s.chain := hm.tail
  have hstacked : r.Stacked frames s.chain :=
    hs.stacked.mono hp (fun hf _ hk ↦ hk.mono hg (hc (.inr hf))) hshape
  exact ⟨hr.close hg.symm (fun _ hmem ↦ List.mem_of_mem_tail (htail ▸ hmem)) hstacked,
    ⟨hp, hshape, rfl, fun _ ↦ rfl, rfl, hc⟩,
    fun f ↦ Lexical.captures_mono (t := { r with chain := s.chain, frames }) (.of_scopes_eq rfl) hg.symm
      fun _ h ↦ h⟩

theorem exists_chain_eq {r : State} {scope : Scope} {frames : List Frame} (hs : s.Lexical) (hr : r.Lexical)
    (hm : (s.openScope scope s.chain frames).Moves k r) :
    ∃ id outer rest, r.chain = id :: outer :: rest ∧ s.chain = outer :: rest := by
  obtain ⟨outer, rest, hchain⟩ := List.exists_cons_of_ne_nil hs.stacked.ne_nil
  obtain ⟨id, rest', hchain'⟩ := List.exists_cons_of_ne_nil hr.stacked.ne_nil
  have htail : r.chain.tail = s.chain := hm.tail
  rw [hchain', List.tail_cons] at htail
  exact ⟨id, outer, rest, by rw [hchain', htail, hchain], hchain⟩

theorem ends_of_opened {α : Type} {A C : Machines → α → Prop} {x y : Eval α} {close : Engine Unit}
    {scope : Scope} {frames : List Frame} {c : List Nat} {j j' : Journal} {l : Stretch}
    (leaves : List Frame → List Frame) (hs : s.Lexical) (hid : s.lastId < scope.id)
    (hclose : ∀ (r : State) id outer rest, r.chain = id :: outer :: rest →
      close r = .ok () { r with chain := outer :: rest, frames := leaves r.frames })
    (hshape : ∀ r, (s.openScope scope s.chain frames).Moves k r →
      (leaves r.frames).map Frame.shape = s.frames.map Frame.shape)
    (hkeep : l = .expression ∨ s.frames ≠ [] → frames ≠ [])
    (hA : ∀ (q r : Machines) a, (∀ v, (scoping exact).valid q v → (scoping exact).valid r v) → A q a → C r a)
    (h : (scoping exact).Related k A x y
      (⟨s.openScope scope s.chain frames, j⟩, ⟨(s.openScope scope s.chain frames).withCaptured c, j'⟩)) :
    (scoping exact).Ends l C (⟨s, j⟩, ⟨s.withCaptured c, j'⟩)
      (Activity.closing x close ⟨s.openScope scope s.chain frames, j⟩)
      (Activity.closing y close ⟨(s.openScope scope s.chain frames).withCaptured c, j'⟩) := by
  refine h.closes fun r hr hm ↦ ?_
  obtain ⟨⟨r, jr⟩, ⟨t, jt⟩⟩ := r
  obtain ⟨hlex, ⟨d, ht, hd, he⟩, hjr⟩ := hr
  dsimp only at hlex ht hd he hjr hm
  subst ht
  obtain ⟨id, outer, rest, hchain, hchain'⟩ := exists_chain_eq hs hlex hm
  obtain ⟨hclosed, hmoves, hcaptures⟩ := lexical_close (l := l) hs hlex hid hm (hshape r hm) hkeep
  rw [hchain'] at hclosed hmoves hcaptures
  have hvalid (v : Value) (hv : v.Within r.Captures) := hv.mono hcaptures
  exact ⟨_, _, ofEngine_apply (hclose r id outer rest hchain),
    ofEngine_apply (hclose (r.withCaptured d) id outer rest hchain), ⟨hclosed, ⟨d, rfl, hd, he⟩, hjr⟩,
    fun _ ↦ hmoves, hmoves, hvalid, fun a ↦ hA _ _ a hvalid⟩

/-- A block can be opened on lexical states, and its scope be renewed. -/
theorem holds_opened (name : String) {s t : State} {j j' : Journal}
    (hp : (scoping exact).holds (⟨s, j⟩, ⟨t, j'⟩)) :
    let opened (u : State) : State :=
      u.openScope { id := u.lastId + 1, kind := .block, name, parent := u.chain.head? } u.chain u.frames
    (scoping exact).holds (⟨opened s, j⟩, ⟨opened t, j'⟩) ∧ (scoping exact).renewable (⟨opened s, j⟩, ⟨opened t, j'⟩) := by
  obtain ⟨hs, ⟨c, ht, hc, he⟩, hj⟩ := hp
  dsimp only at hs ht hc he hj
  subst ht
  let scope : Scope := { id := s.lastId + 1, kind := .block, name, parent := s.chain.head? }
  have hid : s.lastId < scope.id := Nat.lt_succ_self _
  have hopen : (s.openScope scope s.chain s.frames).Lexical :=
    hs.openInner hid rfl (fun _ h ↦ h) nofun rfl nofun hs.stacked
  have hstacked : (s.openScope scope s.chain s.frames).Stacked s.frames s.chain := by
    refine hs.stacked.mono (persists_openScope hs hid) (fun _ id hk ↦ ?_) rfl
    exact hk.mono (globalId?_openScope hs.stacked.ne_nil) fun _ h ↦ h
  exact ⟨⟨hopen, ⟨c, rfl, hc, he⟩, hj⟩, hstacked⟩

theorem related_inScope {name : String} {x y : Eval Unit} (hp : (scoping exact).holds p)
    (hxy : ∀ q, (scoping exact).holds q → (scoping exact).renewable q →
      (scoping exact).Related .iteration anything x y q) :
    (scoping exact).Related .statement anything (Evaluator.inScope name x) (Evaluator.inScope name y) p := by
  obtain ⟨⟨s, j⟩, ⟨t, j'⟩⟩ := p
  have hopened := holds_opened name hp
  obtain ⟨hs, ⟨c, ht, hc, he⟩, hj⟩ := hp
  dsimp only at hs ht
  subst ht
  let scope : Scope := { id := s.lastId + 1, kind := .block, name, parent := s.chain.head? }
  have hid : s.lastId < scope.id := Nat.lt_succ_self _
  refine ends_of_opened (k := .iteration) (A := anything) id hs hid (fun r _ _ _ hr ↦ closeScope_apply hr)
    (fun r hm ↦ hm.shapes) (fun h ↦ h.resolve_left nofun) (fun _ _ _ _ _ ↦ trivial) ?_
  exact hxy _ hopened.1 hopened.2

theorem exists_innermost (hs : s.Lexical) (hr : s.Stacked s.frames s.chain.tail) :
    ∃ id outer rest old, s.chain = id :: outer :: rest ∧ s.scope? id = some old ∧ old.parent = some outer := by
  obtain ⟨id, rest, hchain⟩ := List.exists_cons_of_ne_nil hs.stacked.ne_nil
  rw [hchain, List.tail_cons] at hr
  obtain ⟨outer, rest, rfl⟩ := List.exists_cons_of_ne_nil hr.ne_nil
  have hstacked := hs.stacked
  rw [hchain] at hstacked
  obtain ⟨old, hold⟩ := hstacked.exists_scope id List.mem_cons_self
  exact ⟨id, outer, rest, old, hchain, hold, hstacked.parent_eq hr hold⟩

theorem related_renew (hp : (scoping exact).holds p) (hr : (scoping exact).renewable p) :
    (scoping exact).Related .iteration anything (liftM Engine.renewScope) (liftM Engine.renewScope) p := by
  have hs := hp.1
  obtain ⟨id, outer, rest, old, hchain, hold, hparent⟩ := exists_innermost hs hr
  have hrest : p.1.state.Stacked p.1.state.frames (outer :: rest) := by
    have htail : p.1.state.chain.tail = outer :: rest := by rw [hchain, List.tail_cons]
    exact htail ▸ hr
  have hfresh := ne_lastId_succ hs
  have happly := renewScope_apply hfresh hchain hold hparent
  refine related_of_reaches (A := fun _ _ ↦ True) hp (fun c hc ↦ ?_) ?_
  · rw [happly, renewScope_apply (s := p.1.state.withCaptured c) hfresh hchain hold hparent]
    rfl
  · rw [happly]
    have hid : p.1.state.lastId < p.1.state.lastId + 1 := Nat.lt_succ_self _
    have hlast : (outer :: rest).getLast? = p.1.state.chain.getLast? := by
      rw [hchain, List.getLast?_cons_cons]
    have hsub : outer :: rest ⊆ p.1.state.chain := fun _ hm ↦ hchain ▸ List.mem_cons_of_mem id hm
    have hkind : old.kind ≠ .global := fun e ↦ by
      have hroot := (hs.root id old hold).mpr ((hs.global id old hold).mp e)
      rw [hparent] at hroot
      exact nomatch hroot
    have hbound := hs.bound id old hold (.inl (hchain ▸ List.mem_cons_self))
    refine ⟨hs.openInner hid hlast hsub hkind hparent hbound hrest,
      ⟨persists_openScope hs hid, rfl, (globalId?_openScope (List.cons_ne_nil _ _)).trans hlast, fun h ↦ absurd rfl h,
        ?_, fun _ _ h ↦ h⟩, rfl, trivial⟩
    rw [hchain]
    rfl

theorem related_inCall {f : Function} {arguments : List Value} {line : Int} {name : String}
    {x y : Nat → Eval Value} (hp : (scoping exact).holds p) (hf : (scoping exact).valid p (.function f))
    (hxy : ∀ scope q, (scoping exact).holds q → (∀ v, (scoping exact).valid p v → (scoping exact).valid q v) →
      (scoping exact).Related .body (scoping exact).valid (x scope) (y scope) q) :
    (scoping exact).Related .expression (scoping exact).valid (Evaluator.inCall f arguments line name x)
      (Evaluator.inCall f arguments line name y) p := by
  obtain ⟨⟨s, j⟩, ⟨t, j'⟩⟩ := p
  obtain ⟨hs, ⟨c, ht, hc, he⟩, hj⟩ := hp
  have hclosed : s.Closed f.closure := hf
  dsimp only at hs ht hc he hj
  subst ht
  let scope := s.callScope f name
  let frame := s.callFrame f arguments line name
  have hid : s.lastId < scope.id := s.lt_callScope f name
  have hparent : scope.parent = frame.closure.head? := by
    obtain ⟨parent, ids, hclosure⟩ := List.exists_cons_of_ne_nil hclosed.lineage.ne_nil
    change f.closure.head?.or s.chain.head? = f.closure.head?
    rw [hclosure]
    rfl
  have hopen : (s.openScope scope s.chain (frame :: s.frames)).Lexical :=
    hs.openCall hid nofun rfl hclosed hparent nofun
  have hmono (f : Function) : s.Captures f → (s.openScope scope s.chain (frame :: s.frames)).Captures f :=
    Lexical.captures_mono (persists_openScope hs hid) (globalId?_openScope hs.stacked.ne_nil) fun _ h ↦ h
  refine ends_of_opened (k := .body) (A := (scoping exact).valid) List.tail hs hid
    (fun r _ _ _ hr ↦ leave_apply hr) (fun r hm ↦ ?_) (fun _ ↦ List.cons_ne_nil _ _) (fun _ _ v h ↦ h v) ?_
  · have hshapes := hm.shapes
    rw [List.map_tail, hshapes]
    rfl
  · exact (hxy _ _ ⟨hopen, ⟨c, rfl, hc, he⟩, hj⟩ fun v hv ↦ hv.mono hmono).catchReturn

theorem related_keepLocals {scope : Nat} (hp : (scoping exact).holds p) :
    (scoping exact).Related .body anything (liftM (Evaluator.keepLocals scope))
      (liftM (Evaluator.keepLocals scope)) p := by
  refine related_of_reaches (A := fun _ _ ↦ True) hp (fun c hc ↦ rfl) ?_
  obtain ⟨frames, hframes, hshape, -⟩ := keepLocals_apply scope p.1.state
  rw [hframes]
  exact ⟨hp.1.withFrames hshape, ⟨.of_scopes_eq rfl, hshape, rfl, fun _ ↦ rfl, rfl, fun _ _ h ↦ h⟩, rfl, trivial⟩

end Stepwise.Correspondence.Scoping
