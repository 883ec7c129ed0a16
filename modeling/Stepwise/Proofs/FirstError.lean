import Stepwise.Proofs.Tree.Preorder
/-!
Errors of trees. A parser flags nodes as erroneous, and where every node with an error or a missing token inside is flagged, the
reported place is that of the first one in the whole tree, although nodes without a flag are not searched.
-/

namespace Stepwise

namespace Node

variable {flags : Node → Bool} {root : Node}

/-- Every node of a tree that is an error or a missing token, or holds one, is flagged; others may be flagged too. -/
def IsFlagged (flags : Node → Bool) (root : Node) : Prop :=
  ∀ n ∈ root.preorder, ∀ m ∈ n.preorder, m.isBad = true → flags n = true

/-- The first error or missing token of the whole tree, or the root if there is none. -/
def culprit (root : Node) : Node := (root.preorder.find? isBad).getD root

theorem isSearch_firstBad? (flags : Node → Bool) :
    IsSearch isBad flags (firstBad? flags) (firstBadAmong? flags) where
  node label children := by rw [firstBad?]; rfl
  nil := by rw [firstBadAmong?]
  cons n ns := by rw [firstBadAmong?]

theorem firstBad?_eq_find? (h : root.IsFlagged flags) : root.firstBad? flags = root.preorder.find? isBad := by
  refine (isSearch_firstBad? flags).eq_find? root fun n hn hflag m hm ↦ ?_
  by_contra hbad
  rw [Bool.not_eq_false] at hbad
  exact Bool.false_ne_true (hflag.symm.trans (h n hn m hm hbad))

mutual

theorem hasError_of_mem_preorder : (n : Node) → ∀ m ∈ n.preorder, m.isBad = true → n.hasError = true
  | mk label children, m, hm, hbad => by
    rw [hasError]
    rcases List.mem_cons.mp hm with rfl | hm
    · have hself : (decide (label.kind = .error) || label.missing) = true := hbad
      rw [hself, Bool.true_or, Bool.true_or]
    · rw [anyHasError_of_mem_preorderAll children m hm hbad, Bool.or_true]

theorem anyHasError_of_mem_preorderAll : (ns : List Node) → ∀ m ∈ preorderAll ns, m.isBad = true → anyHasError ns = true
  | [], _, hm, _ => absurd hm List.not_mem_nil
  | n :: ns, m, hm, hbad => by
    rw [anyHasError]
    rcases List.mem_append.mp hm with hm | hm
    · rw [hasError_of_mem_preorder n m hm hbad, Bool.true_or]
    · rw [anyHasError_of_mem_preorderAll ns m hm hbad, Bool.or_true]

end

theorem isFlagged_hasError (root : Node) : root.IsFlagged hasError :=
  fun n _ m hm hbad ↦ hasError_of_mem_preorder n m hm hbad

end Node

/-- What is wrong with a bad node. -/
def Node.complaint (bad : Node) : String :=
  if bad.label.missing then s!"missing '{bad.kind.name}'" else "unexpected token"

/-- What is said about a bad node: where it starts, and what is wrong with it. -/
structure SyntaxFault.Reports (fault : SyntaxFault) (source : Source) (bad : Node) : Prop where
  line : fault.line = (bad.location source).startLine
  column : fault.column = (bad.location source).startColumn
  message : fault.message = Text.ofString s!"SyntaxError: {bad.complaint} at line {fault.line}:{fault.column}"

namespace SyntaxFault

theorem reports_ofTree {flags : Node → Bool} {root : Node} (h : root.IsFlagged flags) (source : Source) :
    (ofTree flags source root).Reports source root.culprit := by
  have hbad : ofTree flags source root =
      ⟨if root.culprit.label.missing then some root.culprit.kind.name else none,
        (root.culprit.location source).startLine, (root.culprit.location source).startColumn⟩ := by
    rw [ofTree, Node.firstBad?_eq_find? h]
    rfl
  rw [hbad]
  refine ⟨rfl, rfl, ?_⟩
  unfold Node.complaint
  cases root.culprit.label.missing <;> rfl

end SyntaxFault

namespace Node

variable {flags : Node → Bool} {root : Node}

/-- A tree is refused exactly if its root is flagged. The search that leaves out nodes without a flag finds the first error or
missing token in document order, as a search of the whole tree does, and this node is reported; the root is where there is
none. Other trees are left as they are. -/
theorem first_error_reported (h : root.IsFlagged flags) (source : Source) :
    root.firstBad? flags = root.preorder.find? isBad ∧
      ((∃ fault, root.checkBy flags source = .error fault) ↔ flags root = true) ∧
      (∀ fault, root.checkBy flags source = .error fault → fault.Reports source root.culprit) ∧
      (flags root = false → root.checkBy flags source = .ok root) := by
  refine ⟨firstBad?_eq_find? h, ?_⟩
  unfold checkBy
  cases hflag : flags root with
  | true =>
    rw [if_pos rfl]
    refine ⟨⟨fun _ ↦ rfl, fun _ ↦ ⟨_, rfl⟩⟩, ?_, nofun⟩
    rintro fault ⟨⟩
    exact SyntaxFault.reports_ofTree h source
  | false =>
    rw [if_neg Bool.false_ne_true]
    refine ⟨⟨fun ⟨fault, hfault⟩ ↦ ?_, nofun⟩, fun fault hfault ↦ ?_, fun _ ↦ rfl⟩
    · cases hfault
    · cases hfault

/-- A text in which an operand is missing in front of a semicolon that is not expected. -/
def halfAssigned : Source := .ofString "x = 1\ny = ;"

/-- The first statement is flagged although nothing is wrong inside. -/
def halfAssignedRoot : Node :=
  .mk ⟨.other "program", 0, 11, none, true, false, false⟩
    [.mk ⟨.expressionStatement, 0, 5, none, true, false, true⟩ [.leaf .assignmentExpression true 0 5],
      .mk ⟨.expressionStatement, 6, 11, none, true, false, false⟩
        [.leaf .identifier true 6 7, .mk ⟨.identifier, 10, 10, none, true, true, false⟩ [], .leaf .error true 10 11]]

theorem first_error_reported_halfAssigned : halfAssignedRoot.IsFlagged hasError ∧
    ∃ fault, halfAssignedRoot.check halfAssigned = .error fault ∧
      fault.message = Text.ofString "SyntaxError: missing 'identifier' at line 2:4" := by
  have hflagged := isFlagged_hasError halfAssignedRoot
  obtain ⟨-, hrefused, hreports, -⟩ := first_error_reported hflagged halfAssigned
  obtain ⟨fault, hfault⟩ := hrefused.mpr rfl
  have hreport := hreports fault hfault
  refine ⟨hflagged, fault, hfault, ?_⟩
  rw [hreport.message, hreport.line, hreport.column]
  rfl

end Node

end Stepwise
