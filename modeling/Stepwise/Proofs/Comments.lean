import Stepwise.Run
/-!
Comments never change what a program does. A tree is read the same without any of its comments, wherever they stand,
except where the place of a child among all others counts: in front of a declaration or an update, and inside of the
text of a literal.
-/

namespace Stepwise

namespace Kind

/-- Whether the first child of such a node may be left out if it is a comment. -/
def freesFirst : Kind → Bool
  | lexicalDeclaration | variableDeclaration | updateExpression | string | templateString => false
  | _ => true

/-- Whether the children behind the first one may be left out where they are comments. -/
def freesRest : Kind → Bool
  | string | templateString => false
  | _ => true

end Kind

mutual

/-- A tree without some of its comments. -/
inductive Node.Sheds : Node → Node → Prop
  | mk {label : Label} {children kept : List Node} :
    ShedsAll label.kind.freesFirst label.kind.freesRest children kept → Sheds (.mk label children) (.mk label kept)

/-- The children of a node without some of the comments among and below them; whether the first may go, and whether
those behind it may. -/
inductive Node.ShedsAll : Bool → Bool → List Node → List Node → Prop
  | nil {first rest : Bool} : ShedsAll first rest [] []
  | keep {first rest : Bool} {n n' : Node} {ns ns' : List Node} :
    Node.Sheds n n' → ShedsAll rest rest ns ns' → ShedsAll first rest (n :: ns) (n' :: ns')
  | drop {rest : Bool} {n : Node} {ns ns' : List Node} :
    n.kind.isComment = true → n.label.field = none → ShedsAll rest rest ns ns' → ShedsAll true rest (n :: ns) ns'

end

namespace Reading

/-- The same children in all that a node reads of them. -/
structure Alike (first rest : Bool) (rs rs' : List Reading) : Prop where
  significant : significant rs' = significant rs
  child? : ∀ field, child? field rs' = child? field rs
  slotted : ∀ {α : Type} (f : Reading → α) (n : Nat), slotted f n rs' = slotted f n rs
  front : first = false → rs'.head? = rs.head?
  whole : first = false → rest = false → rs' = rs

namespace Alike

variable {first rest : Bool} {r : Reading} {rs rs' : List Reading}

theorem refl (first rest : Bool) (rs : List Reading) : Alike first rest rs rs :=
  ⟨rfl, fun _ ↦ rfl, fun _ _ ↦ rfl, fun _ ↦ rfl, fun _ _ ↦ rfl⟩

theorem cons (h : Alike rest rest rs rs') : Alike first rest (r :: rs) (r :: rs') where
  significant := by
    have hsignificant := h.significant
    unfold Reading.significant at hsignificant ⊢
    rw [List.filter_cons, List.filter_cons, hsignificant]
  child? field := by
    have hchild := h.child? field
    unfold Reading.child? at hchild ⊢
    rw [List.find?_cons, List.find?_cons, hchild]
  slotted f n := by
    rw [Reading.slotted, Reading.slotted, h.slotted f (n + 1), h.slotted f n]
  front _ := rfl
  whole _ hrest := by rw [h.whole hrest hrest]

theorem drop (hr : r.kind.isComment = true) (hfield : r.label.field = none) (h : Alike rest rest rs rs') :
    Alike true rest (r :: rs) rs' where
  significant := by
    rw [h.significant]
    unfold Reading.significant
    rw [List.filter_cons_of_neg (by simp [hr])]
  child? field := by
    rw [h.child? field]
    unfold Reading.child?
    rw [List.find?_cons_of_neg (by simp [hfield])]
  slotted f n := by
    have hcomma : r.isComma = false := by
      unfold isComma
      refine decide_eq_false fun hkind ↦ ?_
      rw [hkind] at hr
      cases hr
    rw [h.slotted f n, Reading.slotted, hcomma, hr, Bool.not_true, Bool.and_false]
    rfl
  front h := by cases h
  whole h := by cases h

end Alike

variable {first rest : Bool} {rs rs' : List Reading}

namespace Alike

theorem readUpdate_eq (h : Alike first rest rs rs') (hfirst : first = false) : readUpdate rs' = readUpdate rs := by
  have hfront := h.front hfirst
  unfold readUpdate
  rw [h.child? "argument", h.child? "operator"]
  cases rs with
  | nil =>
    rw [List.head?_eq_none_iff.mp hfront]
  | cons r rs =>
    obtain ⟨tail, rfl⟩ := List.head?_eq_some_iff.mp hfront
    cases Reading.child? "argument" (r :: rs) <;> cases Reading.child? "operator" (r :: rs) <;> rfl

theorem readDeclaration_eq (location : Location) (h : Alike first rest rs rs') (hfirst : first = false) :
    readDeclaration location rs' = readDeclaration location rs := by
  have hfront := h.front hfirst
  unfold readDeclaration
  rw [h.significant]
  cases rs with
  | nil =>
    rw [List.head?_eq_none_iff.mp hfront]
  | cons r rs =>
    obtain ⟨tail, rfl⟩ := List.head?_eq_some_iff.mp hfront
    rfl

theorem readExpr_eq (source : Source) {label : Label} (text : String) (location : Location)
    (h : Alike label.kind.freesFirst label.kind.freesRest rs rs') :
    readExpr source label text location rs' = readExpr source label text location rs := by
  have hchild := h.child?
  have hsignificant := h.significant
  have hslotted := @h.slotted
  have hupdate := fun hfirst ↦ h.readUpdate_eq hfirst
  have hwhole := h.whole
  unfold readExpr
  generalize label.kind = kind at hupdate hwhole
  -- a literal is read off all that stands between its delimiters, an update off its first child
  cases kind with
  | string | templateString => rw [hwhole rfl rfl]
  | updateExpression => exact hupdate rfl
  | _ =>
    simp only [readBinary, readUnary, readAssignment, readCall, exprAt, paramsOf, bodyOf, first?, hchild, hsignificant,
      hslotted]

theorem readStmt_eq {kind : Kind} (location : Location) (h : Alike kind.freesFirst kind.freesRest rs rs') :
    readStmt kind location rs' = readStmt kind location rs := by
  unfold readStmt
  cases kind with
  | lexicalDeclaration | variableDeclaration => exact h.readDeclaration_eq location rfl
  | _ => simp only [readLoop, exprAt, stmtAt, paramsOf, bodyOf, first?, h.child?, h.significant]

/-- Only the children of a literal are written out in a key. -/
theorem literal_eq (source : Source) {label : Label} (h : Alike label.kind.freesFirst label.kind.freesRest rs rs') :
    (if label.kind = .string then literal source label rs' else []) =
      if label.kind = .string then literal source label rs else [] := by
  split
  next hkind => rw [h.whole (by rw [hkind]; rfl) (by rw [hkind]; rfl)]
  next => rfl

end Alike

theorem ofChildren_congr {source : Source} {label : Label}
    (h : Alike label.kind.freesFirst label.kind.freesRest rs rs') :
    ofChildren source label rs' = ofChildren source label rs := by
  have hslotted := @h.slotted
  unfold ofChildren
  simp only [h.readExpr_eq, h.readStmt_eq, h.literal_eq]
  simp only [readPlace, readClause, readMember, readKey, readParam, readBody, readNames, readDeclared, hoistedBy,
    readDeclarator, exprAt, first?, h.child?, h.significant, hslotted]

end Reading

@[simp] theorem Node.label_read (source : Source) (n : Node) : (n.read source).label = n.label := by
  cases n
  rw [Node.read]
  rfl

mutual

theorem Node.Sheds.read_eq (source : Source) {n n' : Node} : n.Sheds n' → n'.read source = n.read source
  | .mk h => by
    rw [Node.read, Node.read]
    exact Reading.ofChildren_congr (h.alike source)

theorem Node.ShedsAll.alike (source : Source) {first rest : Bool} {ns ns' : List Node} :
    Node.ShedsAll first rest ns ns' → Reading.Alike first rest (Node.readAll source ns) (Node.readAll source ns')
  | .nil => .refl first rest _
  | .keep hn h => by
    rw [Node.readAll, Node.readAll, hn.read_eq source]
    exact (h.alike source).cons
  | .drop (n := n) hcomment hfield h => by
    rw [Node.readAll]
    have hlabel := n.label_read source
    exact .drop (by rw [Reading.kind, hlabel]; exact hcomment) (by rw [hlabel, hfield]) (h.alike source)

end

theorem Program.ofTree_sheds (source : Source) {root root' : Node} (h : root.Sheds root') :
    ofTree source root' = ofTree source root := by
  cases h with
  | mk h =>
    have halike := h.alike source
    unfold ofTree Reading.hoistedBy
    simp only [Node.children, halike.significant]

/-- A tree and the same tree without any of its comments give one trace, of whatever settings and depth. -/
theorem ofTree?_sheds (settings : Settings) (depth : Nat) (source : Source) {root root' : Node} (h : root.Sheds root') :
    Trace.ofTree? settings depth source root' = Trace.ofTree? settings depth source root := by
  unfold Trace.ofTree?
  rw [Program.ofTree_sheds source h]

/-- `let a = [1/**/, 2] // x`, or what is left of it with fewer comments. -/
def annotatedArray (behindFirst behind : List Node) : Node :=
  let token (name : String) (start stop : Nat) : Node := .leaf (.other name) false start stop
  let array : Node := .branch .array (token "[" 8 9 :: .leaf .number true 9 10 :: (behindFirst ++
    [token "," 14 15, .leaf .number true 16 17, token "]" 17 18]))
  let declarator : Node := .branch .variableDeclarator
    [.inRole "name" (.leaf .identifier true 4 5), token "=" 6 7, .inRole "value" array]
  .mk ⟨.other "program", 0, 23, none, true, false, false⟩ (.branch .lexicalDeclaration [token "let" 0 3, declarator] :: behind)

theorem ofTree?_annotatedArray :
    let annotated := annotatedArray [.leaf .comment true 10 14] [.leaf .comment true 19 23]
    let bare := annotatedArray [] []
    annotated.Sheds bare ∧
      Trace.ofTree? { ceiling := 9, prunes := true } 12 (.ofString "let a = [1/**/, 2] // x") bare =
        Trace.ofTree? { ceiling := 9, prunes := true } 12 (.ofString "let a = [1/**/, 2] // x") annotated := by
  have hleaf {label : Label} : (Node.mk label []).Sheds (.mk label []) := .mk .nil
  have hshed : (annotatedArray [.leaf .comment true 10 14] [.leaf .comment true 19 23]).Sheds (annotatedArray [] []) := by
    refine .mk (.keep (.mk (.keep hleaf (.keep (.mk (.keep hleaf (.keep hleaf (.keep ?_ .nil)))) .nil))) (.drop rfl rfl .nil))
    exact .mk (.keep hleaf (.keep hleaf (.drop rfl rfl (.keep hleaf (.keep hleaf (.keep hleaf .nil))))))
  exact ⟨hshed, ofTree?_sheds _ _ _ hshed⟩

end Stepwise
