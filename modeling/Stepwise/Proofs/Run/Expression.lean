import Stepwise.Proofs.Run.Correspondence
import Stepwise.Proofs.Value.Plain
import Stepwise.Proofs.Value.Raising
/-!
Expressions keep every correspondence that the single operations of an evaluation keep. What a
nested form does is taken from the parts of the evaluator; the cases follow the forms of the
language.
-/

namespace Stepwise

/-- What a step is described as that a task begins with. -/
def Task.title (t : Task) : Text := Text.ofString s!"Executing {t.kind.name} task: " ++ t.description

/-- Whether a step might be described like that. -/
def Text.isTitle (description : Text) : Bool :=
  [TaskKind.microtask, .macrotask].any fun kind => (Text.ofString s!"Executing {kind.name} task: ").isPrefixOf description

theorem Task.isTitle_title (t : Task) : t.title.isTitle = true := by
  unfold Text.isTitle title
  refine List.any_eq_true.mpr ⟨t.kind, ?_, List.isPrefixOf_iff_prefix.mpr (List.prefix_append _ _)⟩
  cases t.kind <;> decide

/-- The step of a declaration begins with another letter. -/
theorem Text.isTitle_declaring (name : String) : (Text.ofString s!"Declaring function {name}").isTitle = false := by
  have hfirst : Text.ofString s!"Declaring function {name}" =
      CodePoint.ofChar 'D' :: (Text.ofString s!"Declaring function {name}").tail := by
    simp [Text.ofString, Text.ofChars, toString]
  rw [hfirst]
  rfl

namespace Correspondence

variable (L : Correspondence)

/-- What single operations have to keep for evaluations under two settings to correspond, calls aside. -/
structure SoundForms (s t : Settings) : Prop where
  raises : ∀ f, f.isInternal = false → L.raises f
  heap_eq : ∀ {p}, L.holds p → p.2.state.heap = p.1.state.heap
  frames_isEmpty : ∀ {p}, L.holds p → p.2.state.frames.isEmpty = p.1.state.frames.isEmpty
  valid_plain : ∀ {p v}, v.isPlain = true → L.valid p v
  valid_held : ∀ {p v}, L.holds p → p.1.state.heap.Holds v → L.valid p v
  record : ∀ {p} line column description, description.isTitle = false → L.holds p → L.Related .expression anything
    (Eval.record line column description) (Eval.record line column description) p
  report : ∀ {p} kind location, L.holds p → L.Related .expression anything
    (Eval.reportUnsupported kind location) (Eval.reportUnsupported kind location) p
  resolve : ∀ {p} name, L.holds p →
    L.Related .expression L.valid (s.names.resolve name) (t.names.resolve name) p
  isDeclared : ∀ {p} name, L.holds p →
    L.Related .expression anything (s.names.isDeclared name) (t.names.isDeclared name) p
  declare : ∀ {p} name v kind, L.holds p → L.valid p v → L.Related .expression anything
    (s.names.declare name v kind none) (t.names.declare name v kind none) p
  declareAs : ∀ {p} kind name v, L.holds p → L.valid p v → L.Related .expression anything
    (Eval.declareAs s.names kind name v) (Eval.declareAs t.names kind name v) p
  assign : ∀ {p} name v, L.holds p → L.valid p v →
    L.Related .expression anything (s.names.assign name v) (t.names.assign name v) p
  hoist : ∀ {p} hoisted, L.holds p →
    L.Related .expression anything (Eval.hoist s.names hoisted) (Eval.hoist t.names hoisted) p
  capture : ∀ {p}, L.holds p → L.Related .expression L.closed s.names.capture t.names.capture p
  freshIdentity : ∀ {p}, L.holds p →
    L.Related .expression anything (liftM Engine.freshIdentity) (liftM Engine.freshIdentity) p
  newArray : ∀ {p} vs, L.holds p → (∀ v ∈ vs, L.valid p v) →
    L.Related .expression L.valid (liftM (Engine.newArray vs)) (liftM (Engine.newArray vs)) p
  newObject : ∀ {p} fields, L.holds p → (∀ v ∈ Dict.values fields, L.valid p v) →
    L.Related .expression L.valid (liftM (Engine.newObject fields)) (liftM (Engine.newObject fields)) p
  setProperty : ∀ {p} receiver key v, L.holds p → L.valid p v → L.Related .expression anything
    (Eval.setProperty receiver key v) (Eval.setProperty receiver key v) p
  say : ∀ {p} level content, L.holds p → (∀ v ∈ content, L.valid p v) →
    L.Related .expression anything (liftM (Engine.say level content)) (liftM (Engine.say level content)) p
  timer : ∀ {p} f arguments line, L.holds p → L.valid p (.function f) →
    (∀ v ∈ arguments, L.valid p v) → L.Related .expression anything
      (liftM (Engine.schedule .macrotask "setTimeout callback" (.call f arguments) line))
      (liftM (Engine.schedule .macrotask "setTimeout callback" (.call f arguments) line)) p
  fetch : ∀ {p} url line, L.holds p → L.Related .expression (fun q a ↦ L.valid q (.promise a))
    (liftM (Engine.fetch url line)) (liftM (Engine.fetch url line)) p
  all : ∀ {p} vs, L.holds p → (∀ v ∈ vs, L.valid p v) →
    L.Related .expression (fun q a ↦ L.valid q (.promise a)) (liftM (Engine.all vs)) (liftM (Engine.all vs)) p
  race : ∀ {p} vs, L.holds p → (∀ v ∈ vs, L.valid p v) →
    L.Related .expression (fun q a ↦ L.valid q (.promise a)) (liftM (Engine.race vs)) (liftM (Engine.race vs)) p
  chain : ∀ {p} address handler, L.holds p → L.valid p (.promise address) →
    (∀ f, handler = some f → L.valid p (.function f)) →
    L.Related .expression (fun q a ↦ L.valid q (.promise a))
      (liftM (Engine.chain address handler)) (liftM (Engine.chain address handler)) p
  inScope : ∀ {p} name x y, L.holds p →
    (∀ q, L.holds q → (name = "for" → L.renewable q) → L.Related .iteration anything x y q) →
    L.Related .statement anything (Evaluator.inScope name x) (Evaluator.inScope name y) p
  renew : ∀ {p}, L.holds p → L.renewable p →
    L.Related .iteration anything (liftM Engine.renewScope) (liftM Engine.renewScope) p
  keepLocals : ∀ {p} scope, L.holds p → L.entered p scope → L.Related .body anything
    (liftM (Evaluator.keepLocals scope)) (liftM (Evaluator.keepLocals scope)) p
  prune : ∀ {p}, L.holds p → p.1.state.frames = [] →
    L.Related .statement anything (Eval.prune s) (Eval.prune t) p

/-- The same with calls. -/
structure Sound (s t : Settings) : Prop extends SoundForms L s t where
  inCall : ∀ {p} f arguments line name x y, L.holds p → L.valid p (.function f) →
    (∀ v ∈ arguments, L.valid p v) →
    (∀ scope q, L.holds q → L.entered q scope → (∀ v, L.valid p v → L.valid q v) →
      L.Related .body L.valid (x scope) (y scope) q) →
    L.Related .expression L.valid (Evaluator.inCall f arguments line name x)
      (Evaluator.inCall f arguments line name y) p

/-- The parts of two evaluators take corresponding machines to corresponding ones. -/
structure Parts (s t : Settings) (a b : Evaluator) : Prop where
  names : a.names = s.names ∧ b.names = t.names
  expr : ∀ {p} e, L.holds p → L.Related .expression L.valid (a.expr e) (b.expr e) p
  stmt : ∀ {p} x, L.holds p → L.Related .statement anything (a.stmt x) (b.stmt x) p
  loop : ∀ {p} r c u x, L.holds p → (r = true → L.renewable p) →
    L.Related (.ofLoop r) anything (a.loop r c u x) (b.loop r c u x) p
  call : ∀ {p} f vs line name, L.holds p → L.valid p (.function f) → (∀ v ∈ vs, L.valid p v) →
    L.Related .expression L.valid (a.call f vs line name) (b.call f vs line name) p

variable {L} {s t : Settings} {a b : Evaluator} {p : Machines} {k : Stretch}

instance : Coe (L.Sound s t) (L.SoundForms s t) := ⟨Sound.toSoundForms⟩

namespace SoundForms

theorem lift (h : L.SoundForms s t) {α : Type} {A : Machines → α → Prop} {e : Except Fault α} (he : Computes e)
    (hp : L.holds p) (hA : ∀ a, e = .ok a → A p a) : L.Related k A (liftM e) (liftM e) p :=
  .lift e hp (fun f hf ↦ h.raises f (he f hf)) hA

theorem incomplete (h : L.SoundForms s t) {α : Type} {A : Machines → α → Prop} (hp : L.holds p) :
    L.Related k A Eval.incomplete Eval.incomplete p := .throw hp (h.raises .incompleteTree rfl)

theorem getHeap (h : L.SoundForms s t) (hp : L.holds p) :
    L.Related k (fun q heap ↦ heap = q.1.state.heap) Eval.getHeap Eval.getHeap p := by
  unfold Related
  have e : Eval.getHeap p.2 = .ok p.1.state.heap p.2 := by rw [← h.heap_eq hp]; rfl
  rw [e]
  exact .ok hp (L.refl k p) rfl

theorem getProperty (h : L.SoundForms s t) (receiver : Value) (key : Text) (hp : L.holds p) :
    L.Related k L.valid (Eval.getProperty receiver key) (Eval.getProperty receiver key) p := by
  refine (h.getHeap hp).bind fun q heap hq _ e ↦ h.lift (heap.computes_getProperty receiver key) hq fun v hv ↦ ?_
  subst e
  exact (Heap.isPlain_or_holds_of_getProperty hv).elim h.valid_plain (h.valid_held hq)

theorem elements (h : L.SoundForms s t) (hp : L.holds p) {heap : Heap} (e : heap = p.1.state.heap)
    {v : Value} {es : List Value} (hes : heap.elements? v = some es) : ∀ v ∈ es, L.valid p v :=
  fun _ hv ↦ h.valid_held hp (e ▸ Heap.holds_of_elements? hes hv)

theorem unsupported (h : L.SoundForms s t) (kind : String) (location : Location) (hp : L.holds p) :
    L.Related .expression L.valid (Eval.unsupported kind location) (Eval.unsupported kind location) p :=
  (h.report kind location hp).seq fun _ hq _ _ ↦ .pure hq (h.valid_plain rfl)

theorem identifier (h : L.SoundForms s t) (name : String) (hp : L.holds p) :
    L.Related .expression L.valid (Eval.identifier s.names name) (Eval.identifier t.names name) p := by
  unfold Eval.identifier
  cases hc : Eval.constant? name with
  | none => exact h.resolve name hp
  | some v =>
    have hv : v.isPlain = true := by
      unfold Eval.constant? at hc
      grind [Value.isPlain]
    refine (h.isDeclared name hp).seq fun q hq _ declared ↦ ?_
    exact .ite (fun _ ↦ h.resolve name hq) (fun _ ↦ .pure hq (h.valid_plain hv))

theorem paramNames (h : L.SoundForms s t) (params : List Param) (hp : L.holds p) :
    L.Related .expression anything (Eval.paramNames params) (Eval.paramNames params) p := by
  induction params generalizing p with
  | nil => exact .pure hp trivial
  | cons param params ih =>
    cases param with
    | name name => exact (ih hp).seq fun q hq _ _ ↦ .pure hq trivial
    | unsupported kind location => exact (h.report kind location hp).seq fun q hq _ _ ↦ ih hq

theorem makeFunction (h : L.SoundForms s t) (name : String) (params : List Param) (body : Body)
    (line : Int) (hp : L.holds p) :
    L.Related .expression (fun q f ↦ L.valid q (.function f))
      (Eval.makeFunction s.names name params body line)
      (Eval.makeFunction t.names name params body line) p := by
  refine (h.paramNames params hp).seq fun q hq _ params ↦ ?_
  refine (h.capture hq).bind fun q closure hq _ hc ↦ ?_
  exact (h.freshIdentity hq).seq fun q hq hl id ↦ .pure hq (L.valid_function.mpr (L.closed_leads hl hc))

theorem named (h : L.SoundForms s t) (name : String) (v : Value) (hp : L.holds p) (hv : L.valid p v) :
    L.Related .expression L.valid (Eval.named name v) (Eval.named name v) p := by
  unfold Eval.named
  split
  next f =>
    refine .ite (fun _ ↦ ?_) (fun _ ↦ .pure hp hv)
    refine (h.freshIdentity hp).seq fun q hq hl id ↦ .pure hq ?_
    exact L.valid_function.mpr (L.closed_leads hl (L.valid_function (f := f) |>.mp hv))
  next => exact .pure hp hv

end SoundForms

/-- All values of a list are valid. -/
def allValid (L : Correspondence) (p : Machines) (vs : List Value) : Prop := ∀ v ∈ vs, L.valid p v

theorem allValid.leads {vs : List Value} {q : Machines} (h : L.allValid p vs)
    (hl : L.leads .expression p q) : L.allValid q vs := fun v hv ↦ L.valid_leads hl (h v hv)

section Parts

variable (h : L.SoundForms s t) (hab : L.Parts s t a b)
include h hab

theorem Parts.optional (e : Option Expr) (hp : L.holds p) :
    L.Related .expression L.valid (a.optional e) (b.optional e) p := by
  cases e with
  | some e => exact hab.expr e hp
  | none => exact .pure hp (h.valid_plain rfl)

theorem Parts.condition (e : Expr) (hp : L.holds p) :
    L.Related .expression anything (a.condition e) (b.condition e) p :=
  (hab.expr e hp).seq fun _ hq _ v ↦ h.lift v.computes_truthy hq fun _ _ ↦ trivial

omit h in
theorem Parts.exprs (es : List Expr) (hp : L.holds p) :
    L.Related .expression L.allValid (a.exprs es) (b.exprs es) p := by
  induction es generalizing p with
  | nil => exact .pure hp (fun _ hv ↦ nomatch hv)
  | cons e es ih =>
    refine (hab.expr e hp).bind fun q v hq _ hv ↦ ?_
    refine (ih hq).bind fun r vs hr hl hvs ↦ .pure hr ?_
    exact List.forall_mem_cons.mpr ⟨L.valid_leads hl hv, hvs⟩

theorem Parts.part (x : Part) (hp : L.holds p) :
    L.Related .expression anything (a.part x) (b.part x) p := by
  cases x with
  | raw text => exact .pure hp trivial
  | escape sequence => exact h.lift (Text.computes_decodeEscape sequence) hp fun _ _ ↦ trivial
  | substitution value =>
    refine (hab.optional h value hp).seq fun q hq _ v ↦ ?_
    exact (h.getHeap hq).bind fun r heap hr _ _ ↦ h.lift (v.computes_toText heap) hr fun _ _ ↦ trivial

theorem Parts.parts (xs : List Part) (hp : L.holds p) :
    L.Related .expression anything (a.parts xs) (b.parts xs) p := by
  induction xs generalizing p with
  | nil => exact .pure hp trivial
  | cons x xs ih =>
    refine (hab.part h x hp).seq fun q hq _ text ↦ ?_
    exact (ih hq).seq fun r hr _ _ ↦ .pure hr trivial

theorem Parts.logical (op : LogicalOp) (left right : Expr) (hp : L.holds p) :
    L.Related .expression L.valid (a.logical op left right) (b.logical op left right) p := by
  refine (hab.expr left hp).bind fun q v hq _ hv ↦ ?_
  have hright : L.Related .expression L.valid (a.expr right) (b.expr right) q := hab.expr right hq
  cases op with
  | and =>
    refine (h.lift v.computes_truthy (A := fun r _ ↦ r = q) hq fun _ _ ↦ rfl).bind fun r c hr _ e ↦ ?_
    subst e
    exact .ite (fun _ ↦ hright) (fun _ ↦ .pure hr hv)
  | or =>
    refine (h.lift v.computes_truthy (A := fun r _ ↦ r = q) hq fun _ _ ↦ rfl).bind fun r c hr _ e ↦ ?_
    subst e
    exact .ite (fun _ ↦ .pure hr hv) (fun _ ↦ hright)
  | nullish => exact .ite (fun _ ↦ hright) (fun _ ↦ .pure hq hv)

theorem Parts.binary (op : BinaryOp) (left right : Expr) (hp : L.holds p) :
    L.Related .expression L.valid (a.binary op left right) (b.binary op left right) p := by
  refine (hab.expr left hp).seq fun q hq _ v ↦ (hab.expr right hq).seq fun r hr _ w ↦ ?_
  refine (h.getHeap hr).bind fun r heap hr _ _ ↦ h.lift (op.computes_apply heap v w) hr fun v hv ↦ ?_
  exact h.valid_plain (BinaryOp.isPlain_apply hv)

theorem Parts.unaryOf (op : UnaryOp) (argument : Expr) (hp : L.holds p) :
    L.Related .expression L.valid
      (do let v ← a.expr argument; op.apply (← Eval.getHeap) v)
      (do let v ← b.expr argument; op.apply (← Eval.getHeap) v) p := by
  refine (hab.expr argument hp).seq fun q hq _ v ↦ ?_
  refine (h.getHeap hq).bind fun r heap hr _ _ ↦ h.lift (op.computes_apply heap v) hr fun v hv ↦ ?_
  exact h.valid_plain (UnaryOp.isPlain_apply hv)

theorem Parts.unary (op : UnaryOp) (argument : Expr) (hp : L.holds p) :
    L.Related .expression L.valid (a.unary op argument) (b.unary op argument) p := by
  unfold Evaluator.unary
  split
  next name =>
    rw [hab.names.1, hab.names.2]
    refine (h.isDeclared name hp).seq fun q hq _ declared ↦ ?_
    exact .ite (fun _ ↦ .pure hq (h.valid_plain rfl))
      (fun _ ↦ hab.unaryOf h .typeof (.identifier name) hq)
  next => exact hab.unaryOf h op argument hp

omit h in
theorem Parts.property (object index : Expr) (hp : L.holds p) :
    L.Related .expression (fun q r ↦ L.valid q r.1) (a.property object index) (b.property object index) p :=
  (hab.expr object hp).bind fun _ _ hq _ hv ↦ (hab.expr index hq).seq fun _ hr hl _ ↦
    .pure hr (L.valid_leads hl hv)

theorem Parts.assignTo (place : Place) (v : Value) (hp : L.holds p) (hv : L.valid p v) :
    L.Related .expression anything (a.assignTo place v) (b.assignTo place v) p := by
  cases place with
  | name name =>
    simp only [Evaluator.assignTo, hab.names]
    exact h.assign name v hp hv
  | member object key =>
    exact (hab.expr object hp).seq fun q hq hl w ↦ h.setProperty w _ v hq (L.valid_leads hl hv)
  | subscript object index =>
    exact (hab.property object index hp).seq fun q hq hl r ↦
      h.setProperty r.1 r.2 v hq (L.valid_leads hl hv)
  | unsupported value kind location => exact h.report kind location hp
  | incomplete => exact h.incomplete hp

omit hab in
theorem SoundForms.updateBy (increments givesNew : Bool) (old : Value) {x y : Value → Eval Unit}
    (hp : L.holds p) (hxy : ∀ q n, L.holds q → L.leads .expression p q → L.Related .expression anything
      (x (.number n)) (y (.number n)) q) :
    L.Related .expression L.valid (Evaluator.updateBy increments givesNew old x)
      (Evaluator.updateBy increments givesNew old y) p := by
  refine (h.getHeap hp).bind fun q heap hq hl _ ↦ ?_
  refine (h.lift (A := anything) (old.computes_toNumber heap) hq fun _ _ ↦ trivial).seq fun q hq hl' n ↦ ?_
  refine (h.lift (A := anything) (Evaluator.computes_stepped increments n) hq fun _ _ ↦ trivial).seq fun q hq hl'' n' ↦ ?_
  exact (hxy q n' hq (L.trans (L.trans hl hl') hl'')).seq fun q hq _ _ ↦ .pure hq (h.valid_plain rfl)

omit hab in
theorem SoundForms.updateProperty (increments givesNew : Bool) (receiver : Value) (key : Text)
    (hp : L.holds p) :
    L.Related .expression L.valid
      (Eval.getProperty receiver key >>= fun old ↦
        Evaluator.updateBy increments givesNew old (Eval.setProperty receiver key))
      (Eval.getProperty receiver key >>= fun old ↦
        Evaluator.updateBy increments givesNew old (Eval.setProperty receiver key)) p :=
  (h.getProperty receiver key hp).seq fun _ hq _ old ↦
    h.updateBy increments givesNew old hq fun _ n hr _ ↦
      h.setProperty receiver key (.number n) hr (h.valid_plain rfl)

theorem Parts.update (increments givesNew : Bool) (place : Place) (hp : L.holds p) :
    L.Related .expression L.valid (a.update increments givesNew place)
      (b.update increments givesNew place) p := by
  have hassign (q n) (hq : L.holds q) : L.Related .expression anything
      (a.assignTo place (.number n)) (b.assignTo place (.number n)) q :=
    hab.assignTo h place (.number n) hq (h.valid_plain rfl)
  cases place with
  | member object key =>
    exact (hab.expr object hp).seq fun q hq _ v ↦ h.updateProperty increments givesNew v _ hq
  | subscript object index =>
    exact (hab.property object index hp).seq fun q hq _ r ↦
      h.updateProperty increments givesNew r.1 r.2 hq
  | name name =>
    exact (hab.expr (.identifier name) hp).seq fun q hq _ old ↦ h.updateBy increments givesNew old hq fun r n hr _ ↦ hassign r n hr
  | unsupported value kind location =>
    exact (hab.expr value hp).seq fun q hq _ old ↦ h.updateBy increments givesNew old hq fun r n hr _ ↦ hassign r n hr
  | incomplete => exact h.incomplete hp

omit hab in
/-- Slots are bound one by one, and the elements stay valid meanwhile. -/
theorem SoundForms.bindSlots {elements : List Value} {x y : String → Place → Value → Eval Unit}
    (slots : List (Nat × Slot)) (hp : L.holds p) (hes : L.allValid p elements)
    (hxy : ∀ q text place v, L.holds q → L.valid q v →
      L.Related .expression anything (x text place v) (y text place v) q) :
    L.Related .expression anything (Evaluator.bindSlots elements x slots)
      (Evaluator.bindSlots elements y slots) p := by
  induction slots generalizing p with
  | nil => exact .pure hp trivial
  | cons slot slots ih =>
    obtain ⟨index, slot⟩ := slot
    cases slot with
    | target text place =>
      have hv : L.valid p (elements.getD index .undefined) := by
        rw [List.getD_eq_getElem?_getD]
        cases he : elements[index]? with
        | none => exact h.valid_plain rfl
        | some v => exact hes v (List.mem_of_getElem? he)
      exact (hxy p text place _ hp hv).seq fun q hq hl _ ↦ ih hq (hes.leads hl)
    | unsupported kind location =>
      exact (h.report kind location hp).seq fun q hq hl _ ↦ ih hq (hes.leads hl)

theorem Parts.assignSlots (slots : List (Nat × Slot)) (value : Expr) (hp : L.holds p) :
    L.Related .expression L.valid (a.assignSlots slots value) (b.assignSlots slots value) p := by
  refine (hab.expr value hp).bind fun q v hq _ hv ↦ (h.getHeap hq).bind fun r heap hr hl e ↦ ?_
  cases hes : heap.elements? v with
  | none => exact .pure hr (h.valid_plain rfl)
  | some elements =>
    refine (h.bindSlots slots hr (h.elements hr e hes) fun q _ place v hq hv ↦
      hab.assignTo h place v hq hv).seq fun q hq hl' _ ↦ .pure hq ?_
    exact L.valid_leads hl' (L.valid_leads hl hv)

theorem Parts.key (x : Key) (hp : L.holds p) :
    L.Related .expression anything (a.key x) (b.key x) p := by
  cases x with
  | name name => exact .pure hp trivial
  | number literal => exact .pure hp trivial
  | string parts => exact hab.parts h parts hp
  | computed value => exact (hab.expr value hp).seq fun q hq _ _ ↦ .pure hq trivial

theorem Parts.members (ms : List Member) (fields : Dict Text Value) (hp : L.holds p)
    (hf : L.allValid p fields.values) :
    L.Related .expression (fun q d ↦ L.allValid q (Dict.values d)) (a.members fields ms)
      (b.members fields ms) p := by
  have hset {q : Machines} {fields : Dict Text Value} (key : Text) {v : Value}
      (hf : L.allValid q fields.values) (hv : L.valid q v) : L.allValid q (fields.set key v).values :=
    fun w hw ↦ (Dict.mem_values_of_mem_values_set hw).elim (fun e ↦ e ▸ hv) (hf w)
  induction ms generalizing fields p with
  | nil => exact .pure hp hf
  | cons m ms ih =>
    cases m with
    | pair key value =>
      refine (hab.key h key hp).seq fun q hq hl key ↦ (hab.expr value hq).bind fun r v hr hl' hv ↦ ?_
      exact ih _ hr (hset key ((hf.leads hl).leads hl') hv)
    | shorthand name =>
      simp only [Evaluator.members, hab.names]
      exact (h.resolve name hp).bind fun q v hq hl hv ↦ ih _ hq (hset _ (hf.leads hl) hv)
    | unsupported kind location =>
      exact (h.report kind location hp).seq fun q hq hl _ ↦ ih _ hq (hf.leads hl)

theorem Parts.startTimer (arguments : List Expr) (location : Location) (hp : L.holds p) :
    L.Related .expression L.valid (a.startTimer arguments location) (b.startTimer arguments location) p := by
  refine (hab.exprs arguments hp).bind fun q values hq _ hvs ↦ ?_
  have hstep (r) (hr : L.holds r) : L.Related .expression L.valid
      (Eval.recordAt location "Scheduled setTimeout" >>= fun _ ↦ pure .undefined)
      (Eval.recordAt location "Scheduled setTimeout" >>= fun _ ↦ pure .undefined) r :=
    (h.record _ _ _ (by decide) hr).seq fun r hr _ _ ↦ .pure hr (h.valid_plain rfl)
  dsimp only
  split
  next f rest =>
    obtain ⟨hf, hrest⟩ := List.forall_mem_cons.mp hvs
    exact (h.timer f _ f.line hq hf fun v hv ↦ hrest v (List.mem_of_mem_drop hv)).seq
      fun r hr _ _ ↦ hstep r hr
  next => exact hstep q hq

theorem Parts.startFetch (arguments : List Expr) (location : Location) (hp : L.holds p) :
    L.Related .expression L.valid (a.startFetch arguments location) (b.startFetch arguments location) p := by
  refine (hab.exprs arguments hp).seq fun q hq _ values ↦ ?_
  have hfetch (url : Text) (r) (hr : L.holds r) : L.Related .expression L.valid
      ((liftM (Engine.fetch url location.startLine) : Eval Address) >>= fun a ↦ pure (.promise a))
      ((liftM (Engine.fetch url location.startLine) : Eval Address) >>= fun a ↦ pure (.promise a)) r :=
    (h.fetch url _ hr).bind fun r a hr _ ha ↦ .pure hr ha
  split
  next url rest =>
    refine (h.getHeap hq).bind fun r heap hr _ _ ↦ ?_
    exact (h.lift (A := anything) (url.computes_toText heap) hr fun _ _ ↦ trivial).seq fun r hr _ url ↦ hfetch url r hr
  next => exact hfetch _ q hq

theorem Parts.combine {x : List Value → Engine Address} (arguments : List Expr) (hp : L.holds p)
    (hx : ∀ q vs, L.holds q → L.allValid q vs →
      L.Related .expression (fun q a ↦ L.valid q (.promise a)) (liftM (x vs)) (liftM (x vs)) q) :
    L.Related .expression L.valid (a.combine x arguments) (b.combine x arguments) p := by
  refine (hab.exprs arguments hp).seq fun q hq _ values ↦ (h.getHeap hq).bind fun r heap hr _ e ↦ ?_
  have hes : L.allValid r ((values.head?.bind heap.elements?).getD []) := by
    cases hes : values.head?.bind heap.elements? with
    | none => exact fun v hv ↦ nomatch hv
    | some es =>
      obtain ⟨v, -, hv⟩ := Option.bind_eq_some_iff.mp hes
      exact h.elements hr e hv
  exact (hx r _ hr hes).bind fun r a hr _ ha ↦ .pure hr ha

theorem Parts.chain (object : Expr) (arguments : List Expr) (hp : L.holds p) :
    L.Related .expression L.valid (a.chain object arguments) (b.chain object arguments) p := by
  refine (hab.expr object hp).bind fun q v hq _ hv ↦ ?_
  split
  next address =>
    refine (hab.exprs arguments hq).bind fun r values hr hl hvs ↦ ?_
    have hhandler : ∀ f, values.head?.bind Value.asFunction? = some f → L.valid r (.function f) := by
      intro f hf
      obtain ⟨w, hw, hf⟩ := Option.bind_eq_some_iff.mp hf
      cases w <;> cases hf
      exact hvs _ (List.mem_of_mem_head? hw)
    exact (h.chain address _ hr (L.valid_leads hl hv) hhandler).bind fun r a hr _ ha ↦ .pure hr ha
  next => exact .pure hq (h.valid_plain rfl)

theorem Parts.builtin (x : Builtin) (arguments : List Expr) (location : Location) (hp : L.holds p) :
    L.Related .expression L.valid (a.builtin x arguments location) (b.builtin x arguments location) p := by
  cases x with
  | timer => exact hab.startTimer h arguments location hp
  | fetch => exact hab.startFetch h arguments location hp
  | console level =>
    refine (hab.exprs arguments hp).bind fun q vs hq _ hvs ↦ ?_
    exact (h.say level vs hq hvs).seq fun r hr _ _ ↦ .pure hr (h.valid_plain rfl)
  | all => exact hab.combine h arguments hp fun q vs hq hvs ↦ h.all vs hq hvs
  | race => exact hab.combine h arguments hp fun q vs hq hvs ↦ h.race vs hq hvs
  | chain object => exact hab.chain h object arguments hp

theorem Parts.callee (e : Expr) (hp : L.holds p) :
    L.Related .expression (fun q r ↦ L.valid q r.1) (a.callee e) (b.callee e) p := by
  unfold Evaluator.callee
  split
  next name =>
    simp only [hab.names]
    exact (h.resolve name hp).bind fun q v hq _ hv ↦ .pure hq hv
  next => exact (hab.expr e hp).bind fun q v hq _ hv ↦ .pure hq hv

theorem Parts.callExpr (callee : Expr) (arguments : List Expr) (location : Location) (hp : L.holds p) :
    L.Related .expression L.valid (a.callExpr callee arguments location)
      (b.callExpr callee arguments location) p := by
  refine (h.record _ _ _ (by decide) hp).seq fun q hq _ _ ↦ ?_
  cases Builtin.ofCallee? callee with
  | some x => exact hab.builtin h x arguments location hq
  | none =>
    refine (hab.callee h callee hq).bind fun r result hr _ hv ↦ ?_
    obtain ⟨v, name⟩ := result
    cases v with
    | function f =>
      exact (hab.exprs arguments hr).bind fun r vs hr hl hvs ↦
        hab.call f vs _ name hr (L.valid_leads hl hv) hvs
    | _ => exact .pure hr (h.valid_plain rfl)

theorem Parts.evalExpr (e : Expr) (hp : L.holds p) :
    L.Related .expression L.valid (a.evalExpr e) (b.evalExpr e) p := by
  have plain {q : Machines} {v : Value} (hq : L.holds q) (hv : v.isPlain = true) :
      L.Related .expression L.valid (pure v) (pure v) q := .pure hq (h.valid_plain hv)
  cases e with
  | identifier name =>
    simp only [Evaluator.evalExpr, hab.names]
    exact h.identifier name hp
  | number literal =>
    exact (h.lift (A := anything) (Num.computes_ofLiteral _) hp fun _ _ ↦ trivial).seq fun q hq _ n ↦ plain hq rfl
  | string parts => exact (hab.parts h parts hp).seq fun q hq _ text ↦ plain hq rfl
  | boolean value => exact plain hp rfl
  | null => exact plain hp rfl
  | undefined => exact plain hp rfl
  | logical op left right => exact hab.logical h op left right hp
  | binary op left right => exact hab.binary h op left right hp
  | unsupportedBinary symbol left right location =>
    exact (hab.expr left hp).seq fun q hq _ _ ↦ (hab.expr right hq).seq fun r hr _ _ ↦
      h.unsupported _ location hr
  | unary op argument => exact hab.unary h op argument hp
  | unsupportedUnary symbol argument location =>
    exact (hab.expr argument hp).seq fun q hq _ _ ↦ h.unsupported _ location hq
  | update increments givesNew place => exact hab.update h increments givesNew place hp
  | assign place value =>
    refine (hab.expr value hp).bind fun q v hq _ hv ↦ ?_
    exact (hab.assignTo h place v hq hv).seq fun r hr hl _ ↦ .pure hr (L.valid_leads hl hv)
  | assignSlots slots value => exact hab.assignSlots h slots value hp
  | conditional condition consequence alternative =>
    refine (hab.condition h condition hp).seq fun q hq _ c ↦ ?_
    exact .ite (fun _ ↦ hab.expr consequence hq) (fun _ ↦ hab.expr alternative hq)
  | parenthesized inner => exact hab.optional h inner hp
  | call callee arguments location => exact hab.callExpr h callee arguments location hp
  | member object key => exact (hab.expr object hp).seq fun q hq _ v ↦ h.getProperty v _ hq
  | subscript object index =>
    exact (hab.property object index hp).seq fun q hq _ r ↦ h.getProperty r.1 r.2 hq
  | array elements =>
    exact (hab.exprs _ hp).bind fun q vs hq _ hvs ↦ h.newArray vs hq hvs
  | object members =>
    refine (hab.members h members Dict.empty hp fun _ hv ↦ nomatch hv).bind fun q fields hq _ hf ↦ ?_
    exact h.newObject fields hq hf
  | function name params body line =>
    simp only [Evaluator.evalExpr, hab.names]
    exact (h.makeFunction _ params body line hp).bind fun q f hq _ hf ↦ .pure hq hf
  | unsupported kind location => exact h.unsupported kind location hp
  | incomplete => exact h.incomplete hp

end Parts

end Correspondence

end Stepwise
