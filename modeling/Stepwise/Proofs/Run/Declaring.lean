import Stepwise.Proofs.Run.Correspondence
/-!
Declarations in two evaluations, for correspondences of which single declarations are known to be related.
-/

namespace Stepwise.Correspondence

variable {L : Correspondence} {p : Machines} {k : Stretch} {α : Type} {A : Machines → α → Prop}
variable {B : Machines → Nat → Prop} {a b : Names}

theorem related_getState {f g : State → Eval α} (h : L.Related k A (f p.1.state) (g p.2.state) p) :
    L.Related k A (Eval.getState >>= f) (Eval.getState >>= g) p := h

/-- Names are declared one after the other, and none of the declarations is told from the scope that was the
innermost one at first. -/
theorem related_hoist (hoisted : List String) (hp : L.holds p) (hhead : p.2.state.headId = p.1.state.headId)
    (hraises : ∀ f, p.1.state.headId = .error f → L.raises f) (hB : ∀ scope, p.1.state.headId = .ok scope → B p scope)
    (hscope : ∀ q scope, L.holds q → B q scope → q.2.state.scope? scope = q.1.state.scope? scope)
    (hdeclare : ∀ q scope name, L.holds q → B q scope → L.Related .expression (fun r _ ↦ B r scope)
      (a.declare name .undefined .functionScoped none) (b.declare name .undefined .functionScoped none) q) :
    L.Related .expression anything (Eval.hoist a hoisted) (Eval.hoist b hoisted) p := by
  refine related_getState ?_
  rw [hhead]
  refine (Related.lift (A := B) _ hp hraises hB).bind fun q scope hq hl hinnermost ↦ ?_
  clear hp hl hhead hraises hB
  induction hoisted generalizing q with
  | nil => exact .pure hq trivial
  | cons name hoisted ih =>
    refine Related.bind (A := fun r _ ↦ B r scope) ?_ fun r _ hr _ hinnermost ↦ ih r hr hinnermost
    refine related_getState ?_
    rw [hscope q scope hq hinnermost]
    exact .ite (fun _ ↦ hdeclare q scope name hq hinnermost) (fun _ ↦ .pure hq hinnermost)

theorem related_declareAs (kind : BindingKind) (name : String) {v : Value}
    (hscope : L.Related .expression B a.functionScope b.functionScope p)
    (hinner : L.Related .expression anything (a.declare name v kind none) (b.declare name v kind none) p)
    (houter : ∀ q scope, L.holds q → L.leads .expression p q → B q scope → L.Related .expression anything
      (a.declare name v kind (some scope)) (b.declare name v kind (some scope)) q) :
    L.Related .expression anything (Eval.declareAs a kind name v) (Eval.declareAs b kind name v) p := by
  unfold Eval.declareAs
  split
  · simp only [bind_map_left]
    exact hscope.bind fun q scope hq hl hscope ↦ houter q scope hq hl hscope
  · exact hinner

end Stepwise.Correspondence
