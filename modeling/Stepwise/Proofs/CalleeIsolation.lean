import Stepwise.Proofs.Run.Enclosed
/-!
A callee does not see its caller. What a call gives, what it stores and what it notes down is the same
in any two states that differ only in the calls in progress and in open scopes that are neither global
nor captured.
-/

namespace Stepwise

/-- What the same call leaves of two machines: they agree as before, their callers are where they
were, and what the call noted down differs only in what lies below it. -/
structure Machine.SameCall (c d m n : Machine Journal) : Prop where
  agree : m.state.Agree n.state
  frames : m.state.frames = c.state.frames ∧ n.state.frames = d.state.frames
  chain : m.state.chain = c.state.chain ∧ n.state.chain = d.state.chain
  journal : Journal.Alike c d m.journal n.journal

/-- The functions of a run capture one scope at least. -/
theorem State.Captures.closure_ne_nil {s : State} {f : Function} (h : s.Captures f) : f.closure ≠ [] := h.lineage.ne_nil

namespace Evaluator

open Machine Correspondence Correspondence.Enclosed

/-- A call gives the same, or stops for the same reason, on any two machines whose states agree, and leaves
them agreeing. -/
theorem calleeIsolated (ceiling : Int) (prunes : Bool) (depth : Nat) {f : Function} (hf : f.closure ≠ [])
    (arguments : List Value) (line : Int) (name : String) {c d : Machine Journal} (h : c.state.Agree d.state) :
    SameEnd (SameCall c d) ((ofDepth { ceiling, prunes } depth).call f arguments line name c)
      ((ofDepth { ceiling, prunes } depth).call f arguments line name d) := by
  cases depth with
  | zero => exact .error ⟨h, ⟨rfl, rfl⟩, ⟨rfl, rfl⟩, .refl c d⟩
  | succ depth =>
    let settings : Settings := { ceiling, prunes }
    have hsound : (enclosed c d).Sound settings settings := sound rfl h.opened h.globalId
    have hs : c.state.chain ≠ [] := State.chain_ne_nil h.opened
    have ht : d.state.chain ≠ [] := State.chain_ne_nil (h.globalId ▸ h.opened)
    have hparent : f.closure.head?.or d.state.chain.head? = f.closure.head?.or c.state.chain.head? := by
      obtain ⟨id, ids, hclosure⟩ := List.exists_cons_of_ne_nil hf
      rw [hclosure]
      rfl
    have hcall : SameEnd (Regains c d [] [] c.state d.state)
        ((ofDepth settings depth).evalCall f arguments line name c)
        ((ofDepth settings depth).evalCall f arguments line name d) :=
      same_inCall (.of_agree h) hs ht (.refl c d) hparent fun scope q hq hscope ↦
        (hsound.parts depth).callBody hsound f arguments scope hq hscope fun _ _ ↦ trivial
    refine hcall.imp fun m n hr ↦ ⟨?_, ⟨?_, hr.frames⟩, ⟨?_, hr.chain⟩, hr.journal⟩
    · exact .of_above h.opened h.globalId hr.above
    · exact hr.stays.frames (by decide)
    · exact hr.stays.chain (by decide)

end Evaluator

/-- A function made in the global scope that reads a name which only a caller binds. -/
def peek : Function := ⟨1, "peek", [], .expression (.identifier "secret"), [1], 1⟩

/-- A machine outside of calls. -/
def atTop : Machine Journal :=
  ⟨{ chain := [1], scopes := [⟨1, .global, Engine.globalScopeName, ∅, none⟩], lastId := 3 }, {}⟩

/-- The same machine inside of a call that binds the name. -/
def inCaller : Machine Journal :=
  ⟨{ atTop.state with
      frames := [⟨2, "caller", 1, [], ∅, some 3, 1, [1]⟩]
      chain := [3, 1]
      scopes := ⟨3, .function, "caller", Dict.empty.set "secret" (.boolean true), some 1⟩ :: atTop.state.scopes }, {}⟩

theorem agree_inCaller : atTop.state.Agree inCaller.state where
  rest := ⟨_, _, _, rfl⟩
  opened := nofun
  globalId := rfl
  scopes id hid := by
    rcases hid with hid | hid
    · cases hid
      rfl
    · cases hid

theorem calleeIsolated_peek : peek.closure ≠ [] ∧ atTop.state.Agree inCaller.state ∧
    SameEnd (Machine.SameCall atTop inCaller)
      ((Evaluator.ofDepth { ceiling := 100, prunes := true } 3).call peek [] 1 "" atTop)
      ((Evaluator.ofDepth { ceiling := 100, prunes := true } 3).call peek [] 1 "" inCaller) :=
  ⟨List.cons_ne_nil _ _, agree_inCaller,
    Evaluator.calleeIsolated 100 true 3 (List.cons_ne_nil _ _) [] 1 "" agree_inCaller⟩

example : ∃ n, (Evaluator.ofDepth {} 3).call peek [] 1 "" inCaller = .error (.fault (.unresolved "secret")) n := ⟨_, rfl⟩

end Stepwise
