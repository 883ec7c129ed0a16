import Stepwise.Program.Reading
/-!
The variables of a body are hoisted. Whatever the statements of a program or of the block of a function declare as
a variable, at any depth, is among the names that the reading of the tree gives to be declared on entry.
-/

namespace Stepwise

def Place.isName : Place → Bool
  | name _ => true
  | _ => false

/-- A slot that declares the name of a variable, or is only reported. -/
def Slot.isPlain : Slot → Bool
  | target _ place => place.isName
  | unsupported _ _ => true

def Slot.names : Slot → List String
  | target text _ => [text]
  | unsupported _ _ => []

namespace Binder

/-- A name, or an array pattern that declares names and nothing else. -/
def isPlain : Binder → Bool
  | .name _ => true
  | .slots targets => targets.all fun slot => slot.2.isPlain
  | .unsupported _ _ | .incomplete => false

def names : Binder → List String
  | .name text => [text]
  | .slots targets => targets.flatMap fun slot => slot.2.names
  | .unsupported _ _ | .incomplete => []

end Binder

def Declarator.target : Declarator → Binder
  | mk target _ => target

/-- A statement declares a variable by a plain declarator, itself or further inside, outside of functions. -/
inductive Stmt.Declares : Stmt → String → Prop
  | here {ds : List Declarator} {location : Location} {d : Declarator} {name : String} :
    d ∈ ds → d.target.isPlain = true → name ∈ d.target.names → Declares (.declaration .functionScoped ds location) name
  | consequence {c : Expr} {x : Stmt} {alternative : Option (Option Stmt)} {location : Location} {name : String} :
    x.Declares name → Declares (.conditional c x alternative location) name
  | alternative {c : Expr} {x y : Stmt} {location : Location} {name : String} :
    y.Declares name → Declares (.conditional c x (some (some y)) location) name
  | initializer {fresh : Bool} {x body : Stmt} {c u : Option Expr} {name : String} :
    x.Declares name → Declares (.loop (.declaration fresh x) c u body) name
  | body {initializer : Initializer} {body : Stmt} {c u : Option Expr} {name : String} :
    body.Declares name → Declares (.loop initializer c u body) name
  | block {xs : List Stmt} {x : Stmt} {name : String} : x ∈ xs → x.Declares name → Declares (.block xs) name

/-- All variables that statements declare are among certain names. -/
def Stmt.AllWithin (names : List String) (xs : List Stmt) : Prop := ∀ x ∈ xs, ∀ name, x.Declares name → name ∈ names

namespace Node

/-- What the grammar promises of every node: tokens have no children, and a declaration that begins with the word of a
variable is one of variables. -/
structure IsRegular (source : Source) (n : Node) : Prop where
  token : n.label.named = false → n.children = []
  word : n.kind = .lexicalDeclaration → ∀ word ∈ n.children.head?, BindingKind.ofWord (word.text source) ≠ .functionScoped

def Regular (source : Source) (root : Node) : Prop := ∀ n ∈ root.preorder, n.IsRegular source

end Node

namespace Reading

variable {r : Reading} {rs : List Reading} {label : Label} {source : Source} {field name : String}

def isSignificant (r : Reading) : Bool := r.label.named && !r.kind.isComment

/-- A reading in which nothing is declared that is not hoisted. -/
structure Hoists (r : Reading) : Prop where
  stmt : ∀ name, r.stmt.Declares name → r.isSignificant = true ∧ name ∈ r.declared
  branch : ∀ x name, r.branch = some x → x.Declares name → r.isSignificant = true ∧ name ∈ r.declared
  initializer : ∀ fresh x name, r.initializer = .declaration fresh x → x.Declares name →
    r.isSignificant = true ∧ name ∈ r.declared
  declarator : r.declarator.target.isPlain = true → ∀ name ∈ r.declarator.target.names, name ∈ r.bound
  slot : r.slot.isPlain = true → ∀ name ∈ r.slot.names, name ∈ r.names
  slots : r.kind = .arrayPattern → (∀ slot ∈ r.slots, slot.2.isPlain = true) →
    ∀ slot ∈ r.slots, ∀ name ∈ slot.2.names, name ∈ r.names
  identifier : r.kind = .identifier → r.text ∈ r.names

theorem mem_of_child? (h : child? field rs = some r) : r ∈ rs := List.mem_of_find?_eq_some h

theorem mem_significant (h : r ∈ rs) (hr : r.isSignificant = true) : r ∈ significant rs := List.mem_filter.mpr ⟨h, hr⟩

theorem mem_of_first? (h : first? rs = some r) : r ∈ rs := (List.mem_filter.mp (List.mem_of_head? h)).1

theorem mem_hoistedBy (h : r ∈ rs) (hr : r.isSignificant = true ∧ name ∈ r.declared) : name ∈ hoistedBy rs :=
  List.mem_flatMap.mpr ⟨r, mem_significant h hr.1, hr.2⟩

theorem exists_of_mem_slotted {n : Nat} {slot : Nat × Slot} (h : slot ∈ slotted Reading.slot n rs) :
    ∃ r ∈ significant rs, slot.2 = r.slot := by
  induction rs generalizing n with
  | nil => cases h
  | cons r rs ih =>
    have hlater {n : Nat} (h : slot ∈ slotted Reading.slot n rs) : ∃ r' ∈ significant (r :: rs), slot.2 = r'.slot := by
      obtain ⟨r', hr', heq⟩ := ih h
      exact ⟨r', (List.Sublist.filter _ (List.sublist_cons_self r rs)).subset hr', heq⟩
    rw [slotted] at h
    split at h
    · exact hlater h
    · split at h
      next hr =>
        rcases List.mem_cons.mp h with rfl | h
        · exact ⟨r, mem_significant List.mem_cons_self hr, rfl⟩
        · exact hlater h
      next => exact hlater h

theorem mem_names_of_slot {kind : Kind} {text : String} {location : Location} {expr : Expr}
    (hplain : (readSlot kind text location (readPlace kind text location expr rs)).isPlain = true)
    (hname : name ∈ (readSlot kind text location (readPlace kind text location expr rs)).names) :
    name ∈ readNames kind text rs := by
  cases kind with
  | identifier => exact hname
  | memberExpression | subscriptExpression =>
    unfold readSlot readPlace at hplain
    dsimp only at hplain
    split at hplain <;> cases hplain
  | _ => cases hname

theorem stmtAt_declares (h : (stmtAt field rs).Declares name) : ∃ r ∈ rs, r.stmt.Declares name := by
  unfold stmtAt at h
  cases hchild : child? field rs with
  | none =>
    rw [hchild] at h
    cases h
  | some r =>
    rw [hchild] at h
    exact ⟨r, mem_of_child? hchild, h⟩

section OfChildren

variable (hrs : ∀ r ∈ rs, r.Hoists)
include hrs

theorem declarator_hoists (hplain : (readDeclarator rs).target.isPlain = true) (hname : name ∈ (readDeclarator rs).target.names) :
    name ∈ ((child? "name" rs).map Reading.names).getD [] := by
  unfold readDeclarator at hplain hname
  cases hchild : child? "name" rs with
  | none =>
    rw [hchild] at hname
    cases hname
  | some target =>
    have htarget := hrs target (mem_of_child? hchild)
    rw [hchild] at hplain hname
    dsimp only [Declarator.target] at hplain hname
    rw [Option.map_some, Option.getD_some]
    split at hname
    next hkind =>
      obtain rfl := List.mem_singleton.mp hname
      exact htarget.identifier hkind
    next hkind =>
      rw [hkind] at hplain
      obtain ⟨slot, hslot, hname⟩ := List.mem_flatMap.mp hname
      exact htarget.slots hkind (List.all_eq_true.mp hplain) slot hslot name hname
    next => cases hname

theorem declaration_hoists {location : Location} (h : (readDeclaration location rs).Declares name) :
    (∃ word, rs.head? = some word ∧ BindingKind.ofWord word.text = .functionScoped) ∧
      name ∈ (significant rs).flatMap Reading.bound := by
  unfold readDeclaration at h
  cases rs with
  | nil => cases h
  | cons word rest =>
    dsimp only at h
    generalize hkind : BindingKind.ofWord word.text = kind at h
    cases h with
    | here hd hplain hname =>
      refine ⟨⟨word, rfl, hkind⟩, ?_⟩
      obtain ⟨r, hr, rfl⟩ := List.mem_map.mp hd
      have hr := (List.mem_filter.mp hr).1
      exact List.mem_flatMap.mpr ⟨r, hr, (hrs r (List.mem_filter.mp hr).1).declarator hplain name hname⟩

theorem loop_hoists (h : (readLoop rs).Declares name) : name ∈ hoistedBy rs := by
  unfold readLoop at h
  generalize hinitializer : ((child? "initializer" rs).map Reading.initializer).getD .none = initializer at h
  cases h with
  | @initializer fresh x _ _ _ _ h =>
    cases hchild : child? "initializer" rs with
    | none =>
      rw [hchild] at hinitializer
      cases hinitializer
    | some r =>
      rw [hchild] at hinitializer
      have hr := mem_of_child? hchild
      exact mem_hoistedBy hr ((hrs r hr).initializer fresh x name hinitializer h)
  | body h =>
    obtain ⟨r, hr, h⟩ := stmtAt_declares h
    exact mem_hoistedBy hr ((hrs r hr).stmt name h)

theorem stmts_hoist : Stmt.AllWithin (hoistedBy rs) ((significant rs).map Reading.stmt) := by
  intro x hx name h
  obtain ⟨r, hr, rfl⟩ := List.mem_map.mp hx
  have hr := (List.mem_filter.mp hr).1
  exact mem_hoistedBy hr ((hrs r hr).stmt name h)

theorem stmt_hoists {kind : Kind} {location : Location}
    (hword : kind = .lexicalDeclaration → ∀ word ∈ rs.head?, BindingKind.ofWord word.text ≠ .functionScoped)
    (h : (readStmt kind location rs).Declares name) : kind.isComment = false ∧ rs ≠ [] ∧ name ∈ readDeclared kind rs := by
  have hne (hmem : name ∈ hoistedBy rs) : rs ≠ [] := by
    rintro rfl
    cases hmem
  cases kind with
  | lexicalDeclaration =>
    obtain ⟨⟨word, hhead, hkind⟩, -⟩ := declaration_hoists hrs h
    exact absurd hkind (hword rfl word hhead)
  | variableDeclaration =>
    obtain ⟨⟨word, hhead, -⟩, hname⟩ := declaration_hoists hrs h
    refine ⟨rfl, ?_, hname⟩
    rintro rfl
    cases hhead
  | functionDeclaration =>
    unfold readStmt at h
    dsimp only at h
    split at h <;> cases h
  | ifStatement =>
    have hname : name ∈ hoistedBy rs := by
      unfold readStmt at h
      dsimp only at h
      generalize halternative : (child? "alternative" rs).map Reading.branch = alternative at h
      cases h with
      | consequence h =>
        obtain ⟨r, hr, h⟩ := stmtAt_declares h
        exact mem_hoistedBy hr ((hrs r hr).stmt name h)
      | @alternative _ _ x _ _ h =>
        obtain ⟨r, hchild, hbranch⟩ := Option.map_eq_some_iff.mp halternative
        have hr := mem_of_child? hchild
        exact mem_hoistedBy hr ((hrs r hr).branch x name hbranch h)
    exact ⟨rfl, hne hname, hname⟩
  | forStatement =>
    have hname := loop_hoists hrs h
    exact ⟨rfl, hne hname, hname⟩
  | statementBlock =>
    have hname : name ∈ hoistedBy rs := by
      cases h with
      | block hx h => exact stmts_hoist hrs _ hx name h
    exact ⟨rfl, hne hname, hname⟩
  | _ => cases h

/-- In a reading put together of children in which nothing is declared that is not hoisted there is nothing either. -/
theorem hoists_ofChildren (htoken : label.named = false → rs = [])
    (hword : label.kind = .lexicalDeclaration → ∀ word ∈ rs.head?, BindingKind.ofWord word.text ≠ .functionScoped) :
    (ofChildren source label rs).Hoists := by
  have hsignificant (hcomment : label.kind.isComment = false) (hne : rs ≠ []) :
      (ofChildren source label rs).isSignificant = true := by
    have hnamed : label.named = true := by
      cases hlabel : label.named with
      | false => exact absurd (htoken hlabel) hne
      | true => rfl
    exact Bool.and_eq_true_iff.mpr ⟨hnamed, congrArg Bool.not hcomment⟩
  have hstmt (name : String) (h : (ofChildren source label rs).stmt.Declares name) :
      (ofChildren source label rs).isSignificant = true ∧ name ∈ (ofChildren source label rs).declared := by
    obtain ⟨hcomment, hne, hname⟩ := stmt_hoists hrs hword h
    exact ⟨hsignificant hcomment hne, hname⟩
  refine ⟨hstmt, fun x name hx h ↦ ?_, fun fresh x name hx h ↦ ?_, fun hplain _ ↦ declarator_hoists hrs hplain,
    fun hplain name hname ↦ ?_, fun hkind hplain slot hslot name hname ↦ ?_, fun hkind ↦ ?_⟩
  · change (if label.kind = .elseClause then (first? rs).map Reading.stmt else some _) = some x at hx
    split at hx
    next hkind =>
      obtain ⟨r, hfirst, rfl⟩ := Option.map_eq_some_iff.mp hx
      have hr := mem_of_first? hfirst
      have hname := mem_hoistedBy hr ((hrs r hr).stmt name h)
      refine ⟨hsignificant (by rw [hkind]; rfl) (List.ne_nil_of_mem hr), ?_⟩
      change name ∈ readDeclared label.kind rs
      rw [hkind]
      exact hname
    next =>
      cases hx
      exact hstmt name h
  · have heq : x = (ofChildren source label rs).stmt := by
      change readInitializer label.kind _ _ = _ at hx
      unfold readInitializer at hx
      split at hx <;> cases hx <;> rfl
    exact hstmt name (heq ▸ h)
  · change (readSlot label.kind _ _ _).isPlain = true at hplain
    change name ∈ (readSlot label.kind _ _ _).names at hname
    exact mem_names_of_slot hplain hname
  · obtain ⟨r, hr, hrslot⟩ := exists_of_mem_slotted hslot
    have hplain := hplain slot hslot
    rw [hrslot] at hplain hname
    change name ∈ readNames label.kind _ rs
    rw [show label.kind = .arrayPattern from hkind]
    exact List.mem_flatMap.mpr ⟨r, hr, (hrs r (List.mem_filter.mp hr).1).slot hplain name hname⟩
  · change _ ∈ readNames label.kind _ rs
    rw [show label.kind = .identifier from hkind]
    exact List.mem_singleton.mpr rfl

end OfChildren

end Reading

namespace Node

variable {source : Source} {n : Node}

theorem isRegular_of_mem (h : n.Regular source) : n.IsRegular source := by
  cases n
  exact h _ List.mem_cons_self

instance : Decidable (IsRegular source n) :=
  decidable_of_iff ((n.label.named = false → n.children = []) ∧ (n.kind = .lexicalDeclaration →
    ∀ word ∈ n.children.head?, BindingKind.ofWord (word.text source) ≠ .functionScoped))
    ⟨fun ⟨htoken, hword⟩ ↦ ⟨htoken, hword⟩, fun ⟨htoken, hword⟩ ↦ ⟨htoken, hword⟩⟩

instance : Decidable (Regular source n) := inferInstanceAs (Decidable (∀ m ∈ n.preorder, m.IsRegular source))

theorem text_read (source : Source) (n : Node) : (n.read source).text = n.text source := by
  cases n
  rw [Node.read]
  rfl

mutual

theorem hoists_read : (n : Node) → n.Regular source → (n.read source).Hoists
  | .mk label children, h => by
    have hregular := isRegular_of_mem h
    have hchildren := hoists_readAll children fun n hn ↦ h n (List.mem_cons_of_mem _ hn)
    rw [Node.read]
    refine Reading.hoists_ofChildren hchildren (fun hnamed ↦ ?_) fun hkind word hword ↦ ?_
    · have hnil : children = [] := hregular.token hnamed
      rw [hnil, readAll]
    · cases children with
      | nil => cases hword
      | cons n ns =>
        cases hword
        rw [text_read]
        exact hregular.word hkind n rfl

theorem hoists_readAll : (ns : List Node) → (∀ n ∈ preorderAll ns, n.IsRegular source) →
    ∀ r ∈ readAll source ns, r.Hoists
  | [], _ => List.forall_mem_nil _
  | n :: ns, h => by
    have hall := List.forall_mem_append.mp h
    rw [readAll]
    exact List.forall_mem_cons.mpr ⟨hoists_read n hall.1, hoists_readAll ns hall.2⟩

end

end Node

mutual

theorem Node.preorder_subset : (n : Node) → ∀ m ∈ n.preorder, m.preorder ⊆ n.preorder
  | .mk label children, m, hm => by
    rcases List.mem_cons.mp hm with rfl | hm
    · exact List.Subset.refl _
    · exact List.subset_cons_of_subset _ (preorderAll_subset children m hm)

theorem Node.preorderAll_subset : (ns : List Node) → ∀ m ∈ preorderAll ns, m.preorder ⊆ preorderAll ns
  | [], _, hm => absurd hm List.not_mem_nil
  | n :: ns, m, hm => by
    rcases List.mem_append.mp hm with hm | hm
    · exact List.subset_append_of_subset_left _ (preorder_subset n m hm)
    · exact List.subset_append_of_subset_right _ (preorderAll_subset ns m hm)

end

theorem Node.Regular.inside {source : Source} {root n : Node} (h : root.Regular source) (hn : n ∈ root.preorder) :
    n.Regular source := fun m hm ↦ h m (root.preorder_subset n hn hm)

theorem Program.allWithin_ofTree {source : Source} {root : Node} (h : root.Regular source) :
    Stmt.AllWithin (Program.ofTree source root).hoisted (Program.ofTree source root).statements := by
  cases root
  exact Reading.stmts_hoist (Node.hoists_readAll _ fun n hn ↦ h n (List.mem_cons_of_mem _ hn))

theorem Node.allWithin_body {source : Source} {n : Node} (h : n.Regular source) {hoisted : List String}
    {statements : List Stmt} (hbody : (n.read source).body = .block hoisted statements) :
    Stmt.AllWithin hoisted statements := by
  obtain ⟨label, children⟩ := n
  have hchildren := hoists_readAll children fun n hn ↦ h n (List.mem_cons_of_mem _ hn)
  rw [Node.read] at hbody
  change Reading.readBody label.kind _ _ = _ at hbody
  unfold Reading.readBody at hbody
  split at hbody
  next =>
    cases hbody
    exact Reading.stmts_hoist hchildren
  next => cases hbody

end Stepwise
