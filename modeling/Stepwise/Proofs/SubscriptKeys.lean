import Stepwise.Proofs.ObjectLiteral
import Stepwise.Proofs.Value.Primitive
import Stepwise.Value.Operator
/-!
The property that a subscript names. It is the text of its value, the one that joining it to a text appends, except that
an array counts as an object: what is stored has no part in the name.
-/

namespace Stepwise

namespace Value

variable {heap : Heap} {v : Value} {t : Text}

/-- What objects are written out as. -/
def objectText : Text := Text.ofString "[object Object]"

/-- An array that is not written out as objects are. -/
def IsMisnamed (heap : Heap) (v : Value) (t : Text) : Prop := (heap.elements? v).isSome = true ∧ t ≠ objectText

theorem toKey_of_elements? (h : (heap.elements? v).isSome = true) : v.toKey = objectText := by
  obtain ⟨elements, helements⟩ := Option.isSome_iff_exists.mp h
  obtain ⟨address, rfl⟩ := Heap.exists_address_of_elements? helements
  rfl

/-- The name is the text of the value, but for arrays that are not written out as objects are. -/
theorem toKey_eq_iff (h : v.toText heap = .ok t) : v.toKey = t ↔ ¬ v.IsMisnamed heap t := by
  unfold IsMisnamed
  cases helements : heap.elements? v with
  | none =>
    rw [toText_of_elements?_eq_none helements] at h
    exact iff_of_true (Except.ok.inj h) fun hmisnamed ↦ Bool.false_ne_true hmisnamed.1
  | some elements =>
    have hkey : v.toKey = objectText := toKey_of_elements? (Option.isSome_iff_exists.mpr ⟨elements, helements⟩)
    rw [hkey, Option.isSome_some, eq_comm]
    simp only [true_and, ne_eq, not_not]

theorem add_empty (h : v.toText heap = .ok t) : add heap (string []) v = .ok (string t) := by
  have hprimitive : ∃ p, v.toPrimitive heap = .ok p ∧ p.plainText = t := by
    cases hreference : v.isReference with
    | true =>
      rw [toPrimitive_of_isReference hreference, h]
      exact ⟨string t, rfl, rfl⟩
    | false =>
      refine ⟨v, toPrimitive_of_not_isReference hreference, ?_⟩
      have hplain : heap.elements? v = none := by
        cases v with
        | object address => cases hreference
        | _ => rfl
      rw [toText_of_elements?_eq_none hplain] at h
      exact Except.ok.inj h
  obtain ⟨p, hp, rfl⟩ := hprimitive
  rw [add, hp]
  rfl

end Value

/-- What is done with a property. -/
inductive Access where
  | read
  | write (v : Value)
  | update (increments givesNew : Bool)

/-- An access to the property of a name. -/
def Access.on (receiver : Value) (key : Text) : Access → Eval Value
  | read => Eval.getProperty receiver key
  | write v => do
    Eval.setProperty receiver key v
    return v
  | update increments givesNew => do
    Evaluator.updateBy increments givesNew (← Eval.getProperty receiver key) (Eval.setProperty receiver key)

namespace Evaluator

variable {self : Evaluator} {object index : Expr} {o v : Value} {t : Text} {m m₁ m₂ : Machine Journal}

/-- An access to what a subscript names. -/
def subscripted (self : Evaluator) (object index : Expr) : Access → Eval Value
  | .read => self.evalExpr (.subscript object index)
  | .write v => do
    self.assignTo (.subscript object index) v
    return v
  | .update increments givesNew => self.evalExpr (.update increments givesNew (.subscript object index))

/-- Subscripts, and the computed key of an object literal, stand for the property of a name. -/
def Addresses (self : Evaluator) (object index : Expr) (o : Value) (key : Text) (m m₁ m₂ : Machine Journal) : Prop :=
  (∀ access, self.subscripted object index access m = access.on o key m₂) ∧
  ∀ fields value rest, self.members fields (.pair (.computed index) value :: rest) m₁ =
    (self.expr value >>= fun w ↦ self.members (fields.set key w) rest) m₂

theorem addresses_toKey (hobject : self.expr object m = .ok o m₁) (hindex : self.expr index m₁ = .ok v m₂) :
    self.Addresses object index o v.toKey m m₁ m₂ := by
  have hproperty := property_eq_ok hobject hindex
  refine ⟨fun access ↦ ?_, fun fields value rest ↦ ?_⟩
  · cases access with
    | read =>
      change (self.property object index >>= fun p ↦ Eval.getProperty p.1 p.2) m = _
      rw [bind_apply, hproperty]
      rfl
    | write w =>
      change ((self.property object index >>= fun p ↦ Eval.setProperty p.1 p.2 w) >>= fun _ ↦ pure w) m = _
      rw [bind_assoc, bind_apply, hproperty]
      rfl
    | update increments givesNew =>
      change (self.property object index >>= fun p ↦ Eval.getProperty p.1 p.2 >>= fun old ↦
        updateBy increments givesNew old (Eval.setProperty p.1 p.2)) m = _
      rw [bind_apply, hproperty]
      rfl
  · change ((self.expr index >>= fun k ↦ pure k.toKey) >>= fun key ↦ self.expr value >>= fun w ↦
      self.members (fields.set key w) rest) m₁ = _
    rw [bind_assoc, bind_apply, hindex]
    rfl

/-- A value that has a text becomes this text where it is joined to the empty one. Unless it is an array that is written out
in another way than objects are, every subscript and every computed key of this value stands for the property of that name.
Such an array stands for the property that is named as objects are written out. -/
theorem subscripts_name_texts (hobject : self.expr object m = .ok o m₁) (hindex : self.expr index m₁ = .ok v m₂)
    (ht : v.toText m₂.state.heap = .ok t) :
    BinaryOp.add.apply m₂.state.heap (.string []) v = .ok (.string t) ∧
    (v.toKey = t ↔ ¬ v.IsMisnamed m₂.state.heap t) ∧
    (¬ v.IsMisnamed m₂.state.heap t → self.Addresses object index o t m m₁ m₂) ∧
    (v.IsMisnamed m₂.state.heap t → self.Addresses object index o Value.objectText m m₁ m₂) := by
  have hkey := Value.toKey_eq_iff ht
  have haddresses := addresses_toKey hobject hindex
  refine ⟨Value.add_empty ht, hkey, fun hnamed ↦ ?_, fun hmisnamed ↦ ?_⟩
  · rw [← hkey.mpr hnamed]
    exact haddresses
  · rw [← Value.toKey_of_elements? hmisnamed.1]
    exact haddresses

/-- An object with one property, of the name given. -/
def singleton (name : String) : Expr := .object [.pair (.string [.raw name]) (.boolean true)]

/-- A subscript that is an array of one object names what objects are written out as. -/
theorem subscripts_name_texts_nested :
    let self := ofDepth {} 3
    let object := singleton "[object Object]"
    let index : Expr := .array [(0, .object [])]
    ∃ o v m₁ m₂, self.expr object .initial = .ok o m₁ ∧ self.expr index m₁ = .ok v m₂ ∧
      v.toText m₂.state.heap = .ok Value.objectText ∧
      BinaryOp.add.apply m₂.state.heap (.string []) v = .ok (.string Value.objectText) ∧
      self.evalExpr (.subscript object index) .initial = .ok (.boolean true) m₂ := by
  intro self object index
  obtain ⟨o, v, m₁, m₂, hobject, hindex, htext, hread⟩ : ∃ o v m₁ m₂, self.expr object .initial = .ok o m₁ ∧
      self.expr index m₁ = .ok v m₂ ∧ v.toText m₂.state.heap = .ok Value.objectText ∧
      Eval.getProperty o Value.objectText m₂ = .ok (.boolean true) m₂ := ⟨_, _, _, _, rfl, rfl, rfl, rfl⟩
  obtain ⟨hadd, -, haddresses, -⟩ := subscripts_name_texts hobject hindex htext
  have haddressed := haddresses fun hmisnamed ↦ hmisnamed.2 rfl
  exact ⟨o, v, m₁, m₂, hobject, hindex, htext, hadd, (haddressed.1 .read).trans hread⟩

/-- A subscript that is an array of the number 1 does not name what joining it to a text appends. -/
theorem subscripts_misname_arrays :
    let self := ofDepth {} 3
    let object := singleton "1"
    let index : Expr := .array [(0, .number "1")]
    ∃ o v m₁ m₂, self.expr object .initial = .ok o m₁ ∧ self.expr index m₁ = .ok v m₂ ∧
      v.toText m₂.state.heap = .ok (Text.ofString "1") ∧
      self.evalExpr (.subscript object index) .initial = .ok .undefined m₂ ∧
      Eval.getProperty o (Text.ofString "1") m₂ = .ok (.boolean true) m₂ := by
  exact ⟨_, _, _, _, rfl, rfl, rfl, rfl, rfl⟩

end Evaluator

end Stepwise
