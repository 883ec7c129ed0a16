import Stepwise.Proofs.Run.Chronicle
/-!
Access to properties in other hands. An evaluation that reads and writes properties in ways of its own comes to the
same as the usual one if the two differ only at references that lead nowhere, since no evaluation holds such a
reference.
-/

namespace Stepwise

/-- Ways to read and to write properties. -/
structure Accessors where
  read : Value → Text → Eval Value
  write : Value → Text → Value → Eval Unit

/-- The usual ways. -/
def Accessors.direct : Accessors where
  read := Eval.getProperty
  write := Eval.setProperty

/-- Ways that are the usual ones wherever the receiver leads to something. -/
structure Accessors.Follow (ways : Accessors) : Prop where
  read : ∀ m receiver key, m.state.Knows receiver → ways.read receiver key m = Eval.getProperty receiver key m
  write : ∀ m receiver key v, m.state.Knows receiver → ways.write receiver key v m = Eval.setProperty receiver key v m

/-- Ways that do not come to an end where the receiver leads to nothing. -/
def Accessors.strict : Accessors where
  read receiver key := do
    if (← get).state.Knows receiver then Eval.getProperty receiver key else throw .exhausted
  write receiver key v := do
    if (← get).state.Knows receiver then Eval.setProperty receiver key v else throw .exhausted

theorem Accessors.follow_strict : strict.Follow where
  read m receiver key h := by
    change (if m.state.Knows receiver then Eval.getProperty receiver key else throw .exhausted : Eval Value) m = _
    rw [if_pos h]
  write m receiver key v h := by
    change (if m.state.Knows receiver then Eval.setProperty receiver key v else throw .exhausted : Eval Unit) m = _
    rw [if_pos h]

namespace Evaluator

variable (self : Evaluator) (ways : Accessors)

def assignThrough (place : Place) (value : Value) : Eval Unit := do
  match place with
  | .member object key => ways.write (← self.expr object) key value
  | .subscript object index =>
    let (receiver, key) ← self.property object index
    ways.write receiver key value
  | place => self.assignTo place value

def updateThrough (increments givesNew : Bool) (place : Place) : Eval Value := do
  match place with
  | .member object key =>
    let receiver ← self.expr object
    updateBy increments givesNew (← ways.read receiver key) (ways.write receiver key)
  | .subscript object index =>
    let (receiver, key) ← self.property object index
    updateBy increments givesNew (← ways.read receiver key) (ways.write receiver key)
  | place => self.update increments givesNew place

def assignSlotsThrough (slots : List (Nat × Slot)) (value : Expr) : Eval Value := do
  let value ← self.expr value
  match (← Eval.getHeap).elements? value with
  | some elements =>
    bindSlots elements (fun _ place item => self.assignThrough ways place item) slots
    return value
  | none => return .undefined

/-- Evaluation of an expression, with the ways given for all access to properties. -/
def evalThrough (e : Expr) : Eval Value :=
  match e with
  | .member object key => do ways.read (← self.expr object) key
  | .subscript object index => do
    let (receiver, key) ← self.property object index
    ways.read receiver key
  | .update increments givesNew place => self.updateThrough ways increments givesNew place
  | .assign place value => do
    let value ← self.expr value
    self.assignThrough ways place value
    return value
  | .assignSlots slots value => self.assignSlotsThrough ways slots value
  | e => self.evalExpr e

/-- The evaluator of a depth that takes the ways given. -/
def through (settings : Settings) : Nat → Evaluator
  | 0 => exhausted settings.names
  | n + 1 => { (through settings n).next settings with expr := (through settings n).evalThrough ways }

theorem assignThrough_direct : self.assignThrough .direct = self.assignTo := by
  funext place value
  cases place <;> rfl

theorem evalThrough_direct : self.evalThrough .direct = self.evalExpr := by
  funext e
  cases e with
  | update increments givesNew place => cases place <;> rfl
  | assign place value =>
    unfold evalThrough
    rw [assignThrough_direct]
    rfl
  | assignSlots slots value =>
    unfold evalThrough assignSlotsThrough
    rw [assignThrough_direct]
    rfl
  | _ => rfl

theorem through_direct (settings : Settings) (depth : Nat) :
    through .direct settings depth = ofDepth settings depth := by
  induction depth with
  | zero => rfl
  | succ n ih =>
    rw [ofDepth_succ, through, ih, evalThrough_direct]
    rfl

end Evaluator

namespace Correspondence.Unfolding

variable {l : Machine Journal} {settings : Settings} {ways : Accessors} {a b : Evaluator} {p : Machines} {v : Value}

section Forms

variable (h : (unfolding l).Sound settings settings) (hways : ways.Follow)
include h hways

theorem related_read {receiver : Value} (key : Text) (hp : (unfolding l).holds p)
    (hknown : (unfolding l).valid p receiver) :
    (unfolding l).Related .expression (unfolding l).valid (Eval.getProperty receiver key)
      (ways.read receiver key) p := by
  refine .congr (hways.read p.2 receiver key ?_) (h.getProperty receiver key hp)
  rw [hp.1]
  exact hknown

theorem related_write {receiver : Value} (key : Text) (hp : (unfolding l).holds p)
    (hknown : (unfolding l).valid p receiver) (hv : (unfolding l).valid p v) :
    (unfolding l).Related .expression anything (Eval.setProperty receiver key v) (ways.write receiver key v) p := by
  refine .congr (hways.write p.2 receiver key v ?_) (h.setProperty receiver key v hp hv)
  rw [hp.1]
  exact hknown

/-- The change of a property: what was known when it is read is so when it is written. -/
theorem related_updateProperty (increments givesNew : Bool) {receiver : Value} (key : Text) (hp : (unfolding l).holds p)
    (hknown : (unfolding l).valid p receiver) :
    (unfolding l).Related .expression (unfolding l).valid
      (Eval.getProperty receiver key >>= fun old ↦
        Evaluator.updateBy increments givesNew old (Eval.setProperty receiver key))
      (ways.read receiver key >>= fun old ↦
        Evaluator.updateBy increments givesNew old (ways.write receiver key)) p := by
  refine (related_read h hways key hp hknown).seq fun q hq hl old ↦ ?_
  refine h.updateBy increments givesNew old hq fun r n hr hl' ↦ ?_
  exact related_write h hways key hr ((unfolding l).valid_leads hl' ((unfolding l).valid_leads hl hknown)) trivial

variable (hab : (unfolding l).Parts settings settings a b)
include hab

theorem related_assignThrough (place : Place) (hp : (unfolding l).holds p) (hv : (unfolding l).valid p v) :
    (unfolding l).Related .expression anything (a.assignTo place v) (b.assignThrough ways place v) p := by
  cases place with
  | member object key =>
    exact (hab.expr object hp).bind fun q receiver hq hl hknown ↦
      related_write h hways _ hq hknown ((unfolding l).valid_leads hl hv)
  | subscript object index =>
    exact (hab.property object index hp).bind fun q r hq hl hknown ↦
      related_write h hways r.2 hq hknown ((unfolding l).valid_leads hl hv)
  | _ => exact hab.assignTo h _ v hp hv

theorem related_updateThrough (increments givesNew : Bool) (place : Place) (hp : (unfolding l).holds p) :
    (unfolding l).Related .expression (unfolding l).valid (a.update increments givesNew place)
      (b.updateThrough ways increments givesNew place) p := by
  cases place with
  | member object key =>
    exact (hab.expr object hp).bind fun q _ hq _ hknown ↦
      related_updateProperty h hways increments givesNew _ hq hknown
  | subscript object index =>
    exact (hab.property object index hp).bind fun q r hq _ hknown ↦
      related_updateProperty h hways increments givesNew r.2 hq hknown
  | _ => exact hab.update h increments givesNew _ hp

theorem related_assignSlotsThrough (slots : List (Nat × Slot)) (value : Expr) (hp : (unfolding l).holds p) :
    (unfolding l).Related .expression (unfolding l).valid (a.assignSlots slots value)
      (b.assignSlotsThrough ways slots value) p := by
  refine (hab.expr value hp).bind fun q v hq _ hv ↦ (h.getHeap hq).bind fun r heap hr hl e ↦ ?_
  cases hes : heap.elements? v with
  | none => exact .pure hr trivial
  | some elements =>
    refine (h.bindSlots slots hr (h.elements hr e hes) fun q _ place w hq hw ↦
      related_assignThrough h hways hab place hq hw).seq fun q hq hl' _ ↦ .pure hq ?_
    exact (unfolding l).valid_leads hl' ((unfolding l).valid_leads hl hv)

theorem related_evalThrough (e : Expr) (hp : (unfolding l).holds p) :
    (unfolding l).Related .expression (unfolding l).valid (a.evalExpr e) (b.evalThrough ways e) p := by
  cases e with
  | member object key =>
    exact (hab.expr object hp).bind fun q _ hq _ hknown ↦ related_read h hways _ hq hknown
  | subscript object index =>
    exact (hab.property object index hp).bind fun q r hq _ hknown ↦ related_read h hways r.2 hq hknown
  | update increments givesNew place => exact related_updateThrough h hways hab increments givesNew place hp
  | assign place value =>
    refine (hab.expr value hp).bind fun q v hq _ hv ↦ ?_
    exact (related_assignThrough h hways hab place hq hv).seq fun r hr hl _ ↦
      .pure hr ((unfolding l).valid_leads hl hv)
  | assignSlots slots value => exact related_assignSlotsThrough h hways hab slots value hp
  | _ => exact hab.evalExpr h _ hp

end Forms

theorem parts_through (hs : settings.names = .ofScopes) (hways : ways.Follow) (depth : Nat) :
    (unfolding l).Parts settings settings (Evaluator.ofDepth settings depth)
      (Evaluator.through ways settings depth) := by
  have h := sound (l := l) hs
  induction depth with
  | zero => exact (unfolding l).parts_exhausted settings settings
  | succ n ih =>
    have hnext := ih.next h
    rw [Evaluator.ofDepth_succ]
    exact { hnext with expr := fun e hp ↦ related_evalThrough h hways ih e hp }

/-- Whichever way is taken where a reference leads nowhere, a run does not come to take it. -/
theorem through_eq_run (hs : settings.names = .ofScopes) (hways : ways.Follow) (depth : Nat) (program : Program) :
    (Evaluator.through ways settings depth).program settings program .initial = settings.run depth program :=
  (outcome_of_ends ((soundLoop hs).program (parts_through hs hways depth) program ⟨rfl, Machine.reaches_initial⟩ rfl)).1

end Correspondence.Unfolding

end Stepwise
