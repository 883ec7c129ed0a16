import Stepwise.Run
import Stepwise.Proofs.Outcome
import Stepwise.Proofs.State.Content
import Stepwise.Proofs.Dict
/-!
Object literals and subscripts. The property that a key in an object literal stands for is the one that its value names
as a subscript, save for numbers that are spelled in another way than they are written out.
-/

namespace Stepwise

namespace Heap

variable {heap : Heap}

theorem content?_foldl_retain (contents : List Value) (address : Address) :
    (contents.foldl retain heap).content? address = heap.content? address := by
  induction contents generalizing heap with
  | nil => rfl
  | cons v contents ih => rw [List.foldl_cons, ih, content?_retain]

theorem content?_store (heap : Heap) (address : Address) (cell : Cell) (contents : List Value) :
    (heap.store address cell contents).content? address = some cell.bare := by
  have hget : (heap.set address cell).get? address = some cell := by
    rw [Dict.get?_set, if_pos rfl]
  rw [store, content?_foldl_retain]
  exact content?_of_get? hget

end Heap

/-- Not a number, or one that is spelled the way it is written out. -/
def Key.isCanonical : Key → Bool
  | .number literal => match Num.ofLiteral literal with
    | .ok x => x.toText == Text.ofString literal
    | .error _ => false
  | _ => true

namespace Evaluator

variable {self : Evaluator}

/-- The value of a key as an expression; a plain name stands for itself. -/
def keyValue (self : Evaluator) : Key → Eval Value
  | .name text => return .string (Text.ofString text)
  | .number literal => self.evalExpr (.number literal)
  | .string parts => self.evalExpr (.string parts)
  | .computed value => self.expr value

/-- The properties that a literal puts in one after the other, each as the value of its key and its own. -/
def properties (self : Evaluator) : List Member → Eval (List (Value × Value))
  | [] => return []
  | .pair key value :: rest => do
    let k ← self.keyValue key
    let v ← self.expr value
    return (k, v) :: (← self.properties rest)
  | .shorthand name :: rest => do
    let v ← self.names.resolve name
    return (.string (Text.ofString name), v) :: (← self.properties rest)
  | .unsupported kind location :: rest => do
    Eval.reportUnsupported kind location
    self.properties rest

theorem keyValue_of_ofLiteral {literal : String} {x : Num} (h : Num.ofLiteral literal = .ok x) :
    self.keyValue (.number literal) = pure (.number x) := by
  have hvalue : self.keyValue (.number literal) =
      (liftM (Num.ofLiteral literal) : Eval Num) >>= fun x ↦ pure (.number x) := rfl
  rw [hvalue, h]
  rfl

theorem key_eq {key : Key} (h : key.isCanonical = true) : self.key key = Value.toKey <$> self.keyValue key := by
  cases key with
  | name text => rfl
  | number literal =>
    unfold Key.isCanonical at h
    dsimp only at h
    cases hx : Num.ofLiteral literal with
    | error f =>
      rw [hx] at h
      cases h
    | ok x =>
      rw [hx] at h
      rw [keyValue_of_ofLiteral hx, map_pure]
      exact congrArg pure (eq_of_beq h).symm
  | string parts =>
    have hvalue : self.keyValue (.string parts) = Value.string <$> self.parts parts :=
      bind_pure_comp Value.string (self.parts parts)
    rw [hvalue, Functor.map_map]
    exact (id_map _).symm
  | computed value => exact bind_pure_comp Value.toKey (self.expr value)

/-- The fields of an object literal are its properties, each under what the value of its key names. -/
theorem members_eq {members : List Member} (h : ∀ key value, .pair key value ∈ members → key.isCanonical = true)
    (fields : Dict Text Value) : self.members fields members =
      (fun properties ↦ fields.setAll (properties.map fun p ↦ (p.1.toKey, p.2))) <$> self.properties members := by
  induction members generalizing fields with
  | nil => rfl
  | cons member members ih =>
    have hrest (key : Key) (value : Expr) (hmem : .pair key value ∈ members) : key.isCanonical = true :=
      h key value (List.mem_cons_of_mem _ hmem)
    cases member with
    | pair key value =>
      have hkey : self.key key = Value.toKey <$> self.keyValue key := key_eq (h key value List.mem_cons_self)
      rw [Evaluator.members, properties, hkey, bind_map_left, map_bind]
      refine bind_congr fun k ↦ ?_
      rw [map_bind]
      refine bind_congr fun v ↦ ?_
      rw [ih hrest, map_bind]
      exact map_eq_pure_bind _ _
    | shorthand name =>
      rw [Evaluator.members, properties, map_bind]
      refine bind_congr fun v ↦ ?_
      rw [ih hrest, map_bind]
      exact map_eq_pure_bind _ _
    | unsupported kind location =>
      rw [Evaluator.members, properties, map_bind]
      exact bind_congr fun _ ↦ ih hrest fields

theorem members_append (fields : Dict Text Value) (front rest : List Member) :
    self.members fields (front ++ rest) = self.members fields front >>= fun fields ↦ self.members fields rest := by
  induction front generalizing fields with
  | nil => rfl
  | cons member front ih =>
    cases member with
    | pair key value =>
      rw [List.cons_append, Evaluator.members, Evaluator.members, bind_assoc]
      refine bind_congr fun k ↦ ?_
      rw [bind_assoc]
      exact bind_congr fun v ↦ ih _
    | shorthand name =>
      rw [List.cons_append, Evaluator.members, Evaluator.members, bind_assoc]
      exact bind_congr fun v ↦ ih _
    | unsupported kind location =>
      rw [List.cons_append, Evaluator.members, Evaluator.members, bind_assoc]
      exact bind_congr fun _ ↦ ih fields

theorem property_eq_ok {object index : Expr} {o k : Value} {m m₁ m₂ : Machine Journal}
    (hobject : self.expr object m = .ok o m₁) (hindex : self.expr index m₁ = .ok k m₂) :
    self.property object index m = .ok (o, k.toKey) m₂ := by
  unfold property
  rw [bind_apply, hobject]
  dsimp only
  rw [bind_apply, hindex]
  rfl

theorem evalExpr_subscript {object index : Expr} {address : Address} {k v : Value} {r r₁ r₂ : Machine Journal}
    (hobject : self.expr object r = .ok (.object address) r₁) (hindex : self.expr index r₁ = .ok k r₂)
    (hread : r₂.state.heap.getProperty (.object address) k.toKey = .ok v) :
    self.evalExpr (.subscript object index) r = .ok v r₂ := by
  have hproperty := property_eq_ok hobject hindex
  have hget : Eval.getProperty (.object address) k.toKey r₂ =
      (liftM (r₂.state.heap.getProperty (.object address) k.toKey) : Eval Value) r₂ := rfl
  change (self.property object index >>= fun p ↦ Eval.getProperty p.1 p.2) r = _
  rw [bind_apply, hproperty]
  dsimp only
  rw [hget, hread]
  rfl

/-- Every property in an object literal is stored under what the value of its key names. A subscript of that value reads
the value of the property, unless the key of a later one names the same; and keys stand for the same property exactly if
their values name the same. Among the keys, from this one on, there must be no number in another spelling than it is
written out in. -/
theorem object_read_by_keys {front rest : List Member} {key : Key} {value : Expr} {o : Value} {m n : Machine Journal}
    (hkey : key.isCanonical = true) (hrest : ∀ key value, .pair key value ∈ rest → key.isCanonical = true)
    (hobject : self.evalExpr (.object (front ++ .pair key value :: rest)) m = .ok o n) :
    ∃ address fields k v later m₀ m₁ m₂ m₃, o = .object address ∧ self.members Dict.empty front m = .ok fields m₀ ∧
      self.keyValue key m₀ = .ok k m₁ ∧ self.expr value m₁ = .ok v m₂ ∧ self.properties rest m₂ = .ok later m₃ ∧
      n.state.heap.content? address = some
        { isArray := false, fields := fields.setAll ((k.toKey, v) :: later.map fun p ↦ (p.1.toKey, p.2)) } ∧
      ((∀ p ∈ later, p.1.toKey ≠ k.toKey) → ∀ object index r r₁ r₂, self.expr object r = .ok o r₁ →
        self.expr index r₁ = .ok k r₂ → r₂.state.heap.content? address = n.state.heap.content? address →
        self.evalExpr (.subscript object index) r = .ok v r₂) ∧
      ∀ key', key'.isCanonical = true → ∀ t t' a b c d, self.key key a = .ok t b → self.key key' c = .ok t' d →
        ∃ k k', self.keyValue key a = .ok k b ∧ self.keyValue key' c = .ok k' d ∧ (t = t' ↔ k.toKey = k'.toKey) := by
  change (self.members Dict.empty (front ++ .pair key value :: rest) >>= fun fields ↦
    (Engine.newObject fields : Eval Value)) m = _ at hobject
  obtain ⟨all, m₃, hall, hnew⟩ := bind_eq_ok hobject
  rw [members_append] at hall
  obtain ⟨fields, m₀, hfront, hall⟩ := bind_eq_ok hall
  rw [Evaluator.members, key_eq hkey, bind_map_left] at hall
  obtain ⟨k, m₁, hk, hall⟩ := bind_eq_ok hall
  obtain ⟨v, m₂, hv, hall⟩ := bind_eq_ok hall
  rw [members_eq hrest] at hall
  obtain ⟨later, hlater, rfl⟩ := map_eq_ok hall
  cases hnew
  let all := (fields.set k.toKey v).setAll (later.map fun p ↦ (p.1.toKey, p.2))
  have hcontent :=
    m₃.state.heap.content?_store (.object (m₃.state.lastId + 1)) { isArray := false, fields := all } all.values
  refine ⟨_, fields, k, v, later, m₀, m₁, m₂, m₃, rfl, hfront, hk, hv, hlater, hcontent, ?_, ?_⟩
  · intro hlast object index r r₁ r₂ hobject hindex hsame
    have hbehind : k.toKey ∉ (later.map fun p ↦ (p.1.toKey, p.2)).map Prod.fst := fun hmem ↦ by
      rw [List.map_map] at hmem
      obtain ⟨p, hp, hname⟩ := List.mem_map.mp hmem
      exact hlast p hp hname
    have hget : all.get? k.toKey = some v := by
      change ((fields.set k.toKey v).setAll _).get? k.toKey = some v
      rw [Dict.get?_setAll_of_notMem _ hbehind, Dict.get?_set, if_pos rfl]
    refine evalExpr_subscript hobject hindex ?_
    rw [Heap.getProperty_of_content? (hsame.trans hcontent)]
    change Except.ok ((all.get? k.toKey).getD .undefined) = _
    rw [hget, Option.getD_some]
  · intro key' hkey' t t' a b c d ht ht'
    rw [key_eq hkey] at ht
    rw [key_eq hkey'] at ht'
    obtain ⟨k, hk, rfl⟩ := map_eq_ok ht
    obtain ⟨k', hk', rfl⟩ := map_eq_ok ht'
    exact ⟨k, k', hk, hk', Iff.rfl⟩

/-- One property whose key is a text, and one whose key is a number. -/
def twiceMembers (number : String) : List Member :=
  [.pair (.string [.raw "1"]) .null, .pair (.number number) (.boolean true)]

theorem object_read_by_keys_twice :
    let self := ofDepth {} 2
    Key.isCanonical (.number "1") = true ∧ ∃ o n, self.evalExpr (.object (twiceMembers "1")) .initial = .ok o n ∧
      self.evalExpr (.subscript (.object (twiceMembers "1")) (.number "1")) .initial = .ok (.boolean true) n := by
  intro self
  have hkey : Key.isCanonical (.number "1") = true := by decide +kernel
  have hnone (key : Key) (value : Expr) (hmem : .pair key value ∈ ([] : List Member)) : key.isCanonical = true :=
    absurd hmem List.not_mem_nil
  obtain ⟨address, n, hobject, hinner⟩ : ∃ address n,
      self.evalExpr (.object (twiceMembers "1")) .initial = .ok (.object address) n ∧
      self.expr (.object (twiceMembers "1")) .initial = .ok (.object address) n := ⟨_, _, rfl, rfl⟩
  have hsplit : self.evalExpr (.object ([.pair (.string [.raw "1"]) .null] ++ [.pair (.number "1") (.boolean true)]))
      .initial = .ok (.object address) n := hobject
  obtain ⟨_, _, k, v, later, m₀, m₁, m₂, m₃, ⟨⟩, -, hk, hv, hlater, -, hread, -⟩ :=
    object_read_by_keys hkey hnone hsplit
  cases hk
  cases hv
  cases hlater
  exact ⟨hkey, _, n, hobject, hread (List.forall_mem_nil _) _ (.number "1") _ n n hinner rfl rfl⟩

/-- Spelled in another way the number is the key of one property and reads another one. -/
theorem object_misread_by_spelling :
    let self := ofDepth {} 2
    ∃ x n, Num.ofLiteral (Text.ofString "1.0") = .ok x ∧ self.keyValue (.number "1.0") = pure (.number x) ∧
      self.evalExpr (.subscript (.object (twiceMembers "1.0")) (.number "1.0")) .initial = .ok .null n := by
  intro self
  have hwritten : (Num.ofLiteral (Text.ofString "1.0")).toOption.map Num.toText = some (Text.ofString "1") := by
    decide +kernel
  cases hx : Num.ofLiteral (Text.ofString "1.0") with
  | error f =>
    rw [hx] at hwritten
    cases hwritten
  | ok x =>
    rw [hx] at hwritten
    have htext : x.toText = Text.ofString "1" := Option.some.inj hwritten
    have hvalue : self.keyValue (.number "1.0") = pure (.number x) := keyValue_of_ofLiteral hx
    obtain ⟨address, n, hobject, hread⟩ : ∃ address n,
        self.expr (.object (twiceMembers "1.0")) .initial = .ok (.object address) n ∧
        n.state.heap.getProperty (.object address) (Text.ofString "1") = .ok .null := ⟨_, _, rfl, rfl⟩
    refine ⟨x, n, rfl, hvalue, evalExpr_subscript hobject (congrFun hvalue n) ?_⟩
    rw [← hread, ← htext]
    rfl

end Evaluator

end Stepwise
