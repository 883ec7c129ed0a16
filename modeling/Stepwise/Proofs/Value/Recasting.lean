import Stepwise.Proofs.Value.Plain
/-!
Values do not look into functions. Whatever the bodies of functions are replaced by, conversions, operators and
properties come to the same, with the same bodies replaced in what they give.
-/

namespace Stepwise

namespace Dict

variable {κ α β : Type} [DecidableEq κ] (f : α → β)

theorem lookup_map (k : κ) (es : List (κ × α)) :
    lookup k (es.map fun e ↦ (e.1, f e.2)) = (lookup k es).map f := by
  induction es with
  | nil => rfl
  | cons e es ih =>
    obtain ⟨k', a⟩ := e
    rw [List.map_cons, lookup, lookup]
    split
    · rfl
    · exact ih

theorem insert_map (k : κ) (a : α) (es : List (κ × α)) :
    insert k (f a) (es.map fun e ↦ (e.1, f e.2)) = (insert k a es).map fun e ↦ (e.1, f e.2) := by
  induction es with
  | nil => rfl
  | cons e es ih =>
    obtain ⟨k', b⟩ := e
    rw [List.map_cons, insert, insert]
    split
    · rfl
    · rw [List.map_cons, ih]

@[simp] theorem get?_mapValues (d : Dict κ α) (k : κ) : (d.mapValues f).get? k = (d.get? k).map f :=
  lookup_map f k d.entries

@[simp] theorem contains_mapValues (d : Dict κ α) (k : κ) : (d.mapValues f).contains k = d.contains k := by
  unfold contains
  rw [get?_mapValues, Option.isSome_map]

theorem mapValues_set (d : Dict κ α) (k : κ) (a : α) : (d.set k a).mapValues f = (d.mapValues f).set k (f a) :=
  congrArg Dict.mk (insert_map f k a d.entries).symm

theorem mapValues_modify {g : α → α} {h : β → β} (d : Dict κ α) (k : κ) (hgh : ∀ a, f (g a) = h (f a)) :
    (d.modify k g).mapValues f = (d.mapValues f).modify k h := by
  unfold modify
  rw [get?_mapValues]
  cases d.get? k with
  | none => rfl
  | some a => exact (mapValues_set f d k (g a)).trans (congrArg _ (hgh a))

omit [DecidableEq κ] in
@[simp] theorem values_mapValues (d : Dict κ α) : (d.mapValues f).values = d.values.map f := by
  unfold values mapValues
  rw [List.map_map, List.map_map]
  rfl

omit [DecidableEq κ] in
@[simp] theorem size_mapValues (d : Dict κ α) : (d.mapValues f).size = d.size := List.length_map _

end Dict

variable (φ : Body → Body)

/-- The same function with another body. -/
def Function.recast (f : Function) : Function := { f with body := φ f.body }

namespace Value

/-- The same value, a function with another body. -/
def recast : Value → Value
  | function f => function (f.recast φ)
  | v => v

variable (v w : Value)

@[simp] theorem plainText_recast : (v.recast φ).plainText = v.plainText := by cases v <;> rfl

@[simp] theorem toKey_recast : (v.recast φ).toKey = v.toKey := plainText_recast φ v

@[simp] theorem truthy_recast : (v.recast φ).truthy = v.truthy := by cases v <;> rfl

@[simp] theorem isNullish_recast : (v.recast φ).isNullish = v.isNullish := by cases v <;> rfl

@[simp] theorem isBoolean_recast : (v.recast φ).isBoolean = v.isBoolean := by cases v <;> rfl

@[simp] theorem typeOf_recast : (v.recast φ).typeOf = v.typeOf := by cases v <;> rfl

@[simp] theorem asFunction?_recast : (v.recast φ).asFunction? = v.asFunction?.map (Function.recast φ) := by
  cases v <;> rfl

theorem getD_recast (vs : List Value) (index : Nat) :
    (vs.map (recast φ)).getD index .undefined = (vs.getD index .undefined).recast φ := by
  rw [List.getD_eq_getElem?_getD, List.getD_eq_getElem?_getD, List.getElem?_map]
  cases vs[index]? <;> rfl

@[simp] theorem strictEquals_recast : strictEquals (v.recast φ) (w.recast φ) = strictEquals v w := by
  cases v <;> cases w <;> rfl

end Value

/-- The same cell, the functions in it with other bodies. -/
def Cell.recast (c : Cell) : Cell :=
  { c with elements := c.elements.map (Value.recast φ), fields := c.fields.mapValues (Value.recast φ) }

theorem Cell.getD_fields_recast (c : Cell) (key : Text) :
    ((c.recast φ).fields.get? key).getD .undefined = ((c.fields.get? key).getD .undefined).recast φ := by
  rw [show (c.recast φ).fields.get? key = (c.fields.get? key).map (Value.recast φ) from c.fields.get?_mapValues _ key]
  cases c.fields.get? key <;> rfl

namespace Heap

variable (heap : Heap) (v : Value)

/-- The same heap, the functions in it with other bodies. -/
def recast : Heap := heap.mapValues (Cell.recast φ)

@[simp] theorem get?_recast (a : Address) : (recast φ heap).get? a = (heap.get? a).map (Cell.recast φ) :=
  heap.get?_mapValues _ a

theorem recast_update {f g : Cell → Cell} (a : Address) (hfg : ∀ c, (f c).recast φ = g (c.recast φ)) :
    recast φ (heap.update a f) = (recast φ heap).update a g := heap.mapValues_modify _ a hfg

@[simp] theorem recast_retain : recast φ (heap.retain v) = (recast φ heap).retain (v.recast φ) := by
  cases v with
  | object a => exact recast_update φ heap a fun _ ↦ rfl
  | _ => rfl

@[simp] theorem recast_release : recast φ (heap.release v) = (recast φ heap).release (v.recast φ) := by
  cases v with
  | object a => exact recast_update φ heap a fun _ ↦ rfl
  | _ => rfl

theorem recast_store (a : Address) (c : Cell) (contents : List Value) :
    recast φ (heap.store a c contents) = (recast φ heap).store a (c.recast φ) (contents.map (Value.recast φ)) := by
  have hfold (heap : Heap) : recast φ (contents.foldl retain heap) =
      (contents.map (Value.recast φ)).foldl retain (recast φ heap) := by
    induction contents generalizing heap with
    | nil => rfl
    | cons v vs ih => rw [List.foldl_cons, ih, recast_retain, List.map_cons, List.foldl_cons]
  have hset : recast φ (heap.set a c) = (recast φ heap).set a (c.recast φ) := heap.mapValues_set _ a c
  unfold store
  rw [hfold, hset]

@[simp] theorem elements?_recast : (recast φ heap).elements? (v.recast φ) =
    (heap.elements? v).map (List.map (Value.recast φ)) := by
  cases v with
  | object a =>
    simp only [Value.recast, elements?, get?_recast]
    cases heap.get? a with
    | none => rfl
    | some c =>
      change (if c.isArray = true then _ else _) = Option.map _ (if c.isArray = true then _ else _)
      split <;> rfl
  | _ => rfl

theorem getD_elements?_recast : ((recast φ heap).elements? (v.recast φ)).getD [] =
    ((heap.elements? v).getD []).map (Value.recast φ) := by
  rw [elements?_recast]
  cases heap.elements? v <;> rfl

theorem recast_setElement (a : Address) (c : Cell) (index : Nat) :
    recast φ (heap.setElement a c index v) = (recast φ heap).setElement a (c.recast φ) index (v.recast φ) := by
  have helements : (c.elements ++ List.replicate (index + 1 - c.elements.length) Value.undefined).map (Value.recast φ) =
      (c.recast φ).elements ++ List.replicate (index + 1 - (c.recast φ).elements.length) .undefined := by
    rw [List.map_append, List.map_replicate]
    exact congrArg (fun n ↦ _ ++ List.replicate (index + 1 - n) _) (List.length_map _).symm
  unfold setElement
  simp only [recast_retain, ← helements, Value.getD_recast, ← recast_release]
  refine congrArg (retain · _) (recast_update φ _ a fun cell ↦ ?_)
  rw [← List.map_set]
  rfl

theorem recast_setField (a : Address) (c : Cell) (key : Text) :
    recast φ (heap.setField a c key v) = (recast φ heap).setField a (c.recast φ) key (v.recast φ) := by
  unfold setField
  rw [recast_retain, c.getD_fields_recast φ key, ← recast_release]
  refine congrArg (retain · _) (recast_update φ _ a fun cell ↦ ?_)
  exact congrArg (fun fields ↦ { cell.recast φ with fields }) (cell.fields.mapValues_set _ key v)

theorem setProperty_recast (receiver : Value) (key : Text) :
    (recast φ heap).setProperty (receiver.recast φ) key (v.recast φ) =
      (heap.setProperty receiver key v).map (recast φ) := by
  unfold setProperty
  cases receiver with
  | object a =>
    simp only [Value.recast, get?_recast]
    cases heap.get? a with
    | none => rfl
    | some c =>
      change (if c.isArray = true then _ else _) = Except.map _ (if c.isArray = true then _ else _)
      split
      · cases arrayIndex? key with
        | error f => rfl
        | ok index? =>
          cases index? with
          | some index => exact congrArg Except.ok (recast_setElement φ heap v a c index).symm
          | none => exact congrArg Except.ok (recast_setField φ heap v a c key).symm
      · exact congrArg Except.ok (recast_setField φ heap v a c key).symm
  | _ => rfl

end Heap

theorem Cell.read_recast (c : Cell) (key : Text) : (c.recast φ).read key = (c.read key).map (Value.recast φ) := by
  have hfield := c.getD_fields_recast φ key
  unfold Cell.read
  change (if c.isArray = true then _ else _) = Except.map _ (if c.isArray = true then _ else _)
  split
  · split
    · rw [show (c.recast φ).elements.length = c.elements.length from List.length_map _]
      rfl
    · cases arrayIndex? key with
      | error f => rfl
      | ok index? =>
        cases index? with
        | some index => exact congrArg Except.ok (Value.getD_recast φ c.elements index)
        | none => exact congrArg Except.ok hfield
  · exact congrArg Except.ok hfield

theorem Value.recast_of_isPlain {v : Value} (h : v.isPlain = true) : v.recast φ = v := by
  cases v with
  | function f => cases h
  | _ => rfl

theorem Text.map_recast_read (t key : Text) : (t.read key).map (Value.recast φ) = t.read key := by
  unfold Text.read
  split
  · rfl
  · cases arrayIndex? key with
    | error f => rfl
    | ok index? =>
      cases index? with
      | none => rfl
      | some index =>
        simp only [bind, Except.bind]
        cases t[index]? <;> rfl

theorem Heap.getProperty_recast (heap : Heap) (receiver : Value) (key : Text) :
    (recast φ heap).getProperty (receiver.recast φ) key = (heap.getProperty receiver key).map (Value.recast φ) := by
  cases receiver with
  | string t => exact (t.map_recast_read φ key).symm
  | object a =>
    simp only [Value.recast, getProperty, get?_recast]
    cases heap.get? a with
    | none => rfl
    | some c => exact c.read_recast φ key
  | _ => rfl

theorem Heap.arrayCount_recast (heap : Heap) : (recast φ heap).arrayCount = heap.arrayCount := by
  unfold arrayCount recast
  rw [Dict.values_mapValues, List.filter_map, List.length_map]
  rfl

namespace Value

variable (heap : Heap) (v w : Value)

theorem toTextWithin_recast (depth : Nat) :
    (v.recast φ).toTextWithin (heap.recast φ) depth = v.toTextWithin heap depth := by
  induction depth generalizing v with
  | zero => rfl
  | succ depth ih =>
    rw [toTextWithin, toTextWithin, Heap.elements?_recast, plainText_recast]
    cases heap.elements? v with
    | none => rfl
    | some elements => simp only [Option.map_some, List.mapM_map, Function.comp_def, isNullish_recast, ih]

@[simp] theorem toText_recast : (v.recast φ).toText (heap.recast φ) = v.toText heap := by
  unfold toText toText?
  rw [Heap.arrayCount_recast, toTextWithin_recast]

@[simp] theorem toNumber_recast : (v.recast φ).toNumber (heap.recast φ) = v.toNumber heap := by
  cases v with
  | object a => rw [toNumber, ← toText_recast φ]; rfl
  | _ => rfl

@[simp] theorem toPrimitive_recast : (v.recast φ).toPrimitive (heap.recast φ) = v.toPrimitive heap := by
  have htext := toText_recast φ heap v
  cases v with
  | function f | object a | promise a => unfold toPrimitive; rw [← htext]; rfl
  | _ => rfl

theorem convertedEquals_recast :
    convertedEquals (heap.recast φ) (v.recast φ) (w.recast φ) = convertedEquals heap v w := by
  have hempty (v : Value) : (v.recast φ).toNumber ∅ = v.toNumber ∅ := toNumber_recast φ ∅ v
  unfold convertedEquals
  simp only [isBoolean_recast, hempty, toPrimitive_recast]

@[simp] theorem looseEquals_recast : looseEquals (heap.recast φ) (v.recast φ) (w.recast φ) = looseEquals heap v w := by
  unfold looseEquals
  simp only [isNullish_recast, typeOf_recast, strictEquals_recast, convertedEquals_recast]

@[simp] theorem order?_recast : order? (heap.recast φ) (v.recast φ) (w.recast φ) = order? heap v w := by
  have hnumbers : (do
      let x ← (v.recast φ).toNumber (heap.recast φ)
      let y ← (w.recast φ).toNumber (heap.recast φ)
      if ← x.checkNaN then return none
      if ← y.checkNaN then return none
      return x.compare? y) = (do
      let x ← v.toNumber heap
      let y ← w.toNumber heap
      if ← x.checkNaN then return none
      if ← y.checkNaN then return none
      return x.compare? y) := by
    rw [toNumber_recast, toNumber_recast]
  cases v with
  | string t =>
    cases w with
    | string u => rfl
    | _ => exact hnumbers
  | _ => exact hnumbers

theorem isPlain_of_toPrimitive {heap : Heap} {v a : Value} (h : v.toPrimitive heap = .ok a) : a.isPlain = true := by
  unfold toPrimitive at h
  split at h
  · obtain ⟨t, rfl⟩ := Except.exists_of_map_eq_ok h
    rfl
  · obtain ⟨t, rfl⟩ := Except.exists_of_map_eq_ok h
    rfl
  · obtain ⟨t, rfl⟩ := Except.exists_of_map_eq_ok h
    rfl
  next hfunction hobject hpromise =>
    cases h
    cases v <;> simp_all [isPlain]

@[simp] theorem add_recast : add (heap.recast φ) (v.recast φ) (w.recast φ) = add heap v w := by
  unfold add
  rw [toPrimitive_recast, toPrimitive_recast]
  cases hv : v.toPrimitive heap with
  | error f => rfl
  | ok a =>
    cases hw : w.toPrimitive heap with
    | error f => rfl
    | ok b =>
      have ha := toNumber_recast φ heap a
      have hb := toNumber_recast φ heap b
      rw [recast_of_isPlain φ (isPlain_of_toPrimitive hv)] at ha
      rw [recast_of_isPlain φ (isPlain_of_toPrimitive hw)] at hb
      have hnumbers : BinaryOp.numeric Num.add (heap.recast φ) a b = BinaryOp.numeric Num.add heap a b := by
        unfold BinaryOp.numeric
        rw [ha, hb]
      cases a with
      | string t => rfl
      | _ =>
        cases b with
        | string u => rfl
        | _ => exact hnumbers

end Value

theorem BinaryOp.apply_recast (op : BinaryOp) (heap : Heap) (v w : Value) :
    op.apply (heap.recast φ) (v.recast φ) (w.recast φ) = op.apply heap v w := by
  cases op <;> simp only [apply, numeric, comparison, Value.add_recast, Value.toNumber_recast, Value.looseEquals_recast,
    Value.strictEquals_recast, Value.order?_recast]

theorem UnaryOp.apply_recast (op : UnaryOp) (heap : Heap) (v : Value) :
    op.apply (heap.recast φ) (v.recast φ) = op.apply heap v := by
  cases op <;> simp only [apply, Value.truthy_recast, Value.toNumber_recast, Value.typeOf_recast]

end Stepwise
