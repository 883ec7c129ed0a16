import Stepwise.Proofs.Tree.Preorder
import Stepwise.Proofs.Tree.Slice
/-!
Extraction of functions. What is found for a name is the first function in document order that carries it, however deep it is
and inside of whatever; what it has inside comes behind it.
-/

namespace Stepwise.Node

variable {source : Source} {name : String} {root n : Node}

/-- A function of a kind that is searched for, and the text in the role of its name is the given one. -/
structure IsFunctionOf (source : Source) (name : String) (n : Node) : Prop where
  kind : n.kind ∈ [Kind.functionDeclaration, .functionExpression, .function, .generatorFunctionDeclaration]
  named : ∃ c, n.child? "name" = some c ∧ c.text source = name

theorem isNamedFunction_iff (kind : Kind) : kind.isNamedFunction = true ↔
    kind ∈ [Kind.functionDeclaration, .functionExpression, .function, .generatorFunctionDeclaration] := by
  cases kind <;> simp [Kind.isNamedFunction]

theorem isFunctionNamed_iff : n.isFunctionNamed source name = true ↔ n.IsFunctionOf source name := by
  rw [isFunctionNamed, Bool.and_eq_true, isNamedFunction_iff, Option.any_eq_true]
  simp only [beq_iff_eq]
  exact ⟨fun ⟨hkind, hname⟩ ↦ ⟨hkind, hname⟩, fun ⟨hkind, hname⟩ ↦ ⟨hkind, hname⟩⟩

theorem isSearch_findFunction? (source : Source) (name : String) :
    IsSearch (isFunctionNamed source name) (fun _ ↦ true) (findFunction? source name) (findFunctionAmong? source name) where
  node label children := by rw [findFunction?, if_pos rfl]
  nil := by rw [findFunctionAmong?]
  cons n ns := by rw [findFunctionAmong?]

theorem findFunction?_eq_find? (source : Source) (name : String) (root : Node) :
    root.findFunction? source name = root.preorder.find? (isFunctionNamed source name) :=
  (isSearch_findFunction? source name).eq_find? root fun _ _ hentered ↦ absurd hentered Bool.true_eq_false.mp

theorem functionText?_eq_some_iff {text : String} : root.functionText? source name = some text ↔
    ∃ (before : List Node) (n : Node) (after : List Node), root.preorder = before ++ (n.preorder ++ after) ∧
      n.IsFunctionOf source name ∧ (∀ m ∈ before, ¬ m.IsFunctionOf source name) ∧ text = n.text source := by
  rw [functionText?, findFunction?_eq_find?, Option.map_eq_some_iff]
  constructor
  · rintro ⟨n, hfind, rfl⟩
    obtain ⟨hn, before, behind, hpreorder, hbefore⟩ := List.find?_eq_some_iff_append.mp hfind
    obtain ⟨after, hafter⟩ := exists_preorder_eq root hpreorder
    refine ⟨before, n, after, hafter, isFunctionNamed_iff.mp hn, fun m hm hfunction ↦ ?_, rfl⟩
    have hm := hbefore m hm
    rw [isFunctionNamed_iff.mpr hfunction] at hm
    cases hm
  · rintro ⟨before, n, after, hpreorder, hn, hbefore, rfl⟩
    have hfirst : (n.preorder ++ after).find? (isFunctionNamed source name) = some n := by
      cases n
      rw [preorder, List.cons_append, List.find?_cons_of_pos (isFunctionNamed_iff.mpr hn)]
    have hnone : before.find? (isFunctionNamed source name) = none :=
      List.find?_eq_none.mpr fun m hm hfunction ↦ hbefore m hm (isFunctionNamed_iff.mp hfunction)
    exact ⟨n, by rw [hpreorder, List.find?_append, hnone, hfirst, Option.none_or], rfl⟩

theorem functionText?_eq_none_iff :
    root.functionText? source name = none ↔ ∀ n ∈ root.preorder, ¬ n.IsFunctionOf source name := by
  rw [functionText?, findFunction?_eq_find?, Option.map_eq_none_iff, List.find?_eq_none]
  simp only [isFunctionNamed_iff]

theorem extractFunction_eq_ok_iff {text : String} :
    root.extractFunction source name = .ok text ↔ root.functionText? source name = some text := by
  unfold extractFunction
  cases root.functionText? source name with
  | none => exact ⟨nofun, nofun⟩
  | some text' => exact ⟨fun h ↦ congrArg some (Except.ok.inj h), fun h ↦ congrArg Except.ok (Option.some.inj h)⟩

theorem extractFunction_eq_error_iff {message : Text} :
    root.extractFunction source name = .error message ↔
      root.functionText? source name = none ∧ message = notFound name := by
  unfold extractFunction
  cases root.functionText? source name with
  | none => exact ⟨fun h ↦ ⟨rfl, (Except.error.inj h).symm⟩, fun ⟨_, h⟩ ↦ congrArg Except.error h.symm⟩
  | some text => exact ⟨nofun, nofun⟩

/-- The text that is extracted is that of the first node in document order that is a function of the name, with what is inside
of it directly behind it; none is found exactly if no node of the tree is one, and this is said with the name. The text has the
bytes of the source between the offsets of the node. -/
theorem first_function_extracted (source : Source) (name : String) (root : Node) :
    (∀ text, root.extractFunction source name = .ok text ↔
      ∃ (before : List Node) (n : Node) (after : List Node), root.preorder = before ++ (n.preorder ++ after) ∧
        n.IsFunctionOf source name ∧ (∀ m ∈ before, ¬ m.IsFunctionOf source name) ∧ text = n.text source) ∧
    (∀ message, root.extractFunction source name = .error message ↔
      (∀ n ∈ root.preorder, ¬ n.IsFunctionOf source name) ∧ message = notFound name) ∧
    ∀ n : Node, source.IsBoundary n.label.start → source.IsBoundary n.label.stop →
      (n.text source).toByteArray = (String.ofList source.chars).toByteArray.extract n.label.start n.label.stop := by
  refine ⟨fun text ↦ extractFunction_eq_ok_iff.trans functionText?_eq_some_iff, fun message ↦ ?_,
    fun n hstart hstop ↦ Source.toByteArray_slice hstart hstop⟩
  rw [extractFunction_eq_error_iff, functionText?_eq_none_iff]

/-- A function inside of one with another name, which is an argument of a call. -/
def nestedGenerator : Source := .ofString "f(function h() \x7b function* g() \x7b\x7d \x7d)"

def generator : Node :=
  .mk ⟨.generatorFunctionDeclaration, 17, 33, none, true, false, false⟩ [(leaf .identifier true 27 28).inRole "name"]

def nestedGeneratorRoot : Node :=
  .mk ⟨.callExpression, 0, 36, none, true, false, false⟩
    [.leaf .identifier true 0 1,
      .mk ⟨.other "arguments", 1, 36, none, true, false, false⟩
        [.mk ⟨.functionExpression, 2, 35, none, true, false, false⟩
          [(leaf .identifier true 11 12).inRole "name",
            .mk ⟨.statementBlock, 15, 35, none, true, false, false⟩ [generator]]]]

theorem first_function_extracted_nestedGenerator :
    nestedGeneratorRoot.extractFunction nestedGenerator "g" = .ok "function* g() \x7b\x7d" ∧
      nestedGeneratorRoot.extractFunction nestedGenerator "f" = .error (notFound "f") := by
  obtain ⟨hfound, -⟩ := first_function_extracted nestedGenerator "g" nestedGeneratorRoot
  obtain ⟨-, hnone, -⟩ := first_function_extracted nestedGenerator "f" nestedGeneratorRoot
  have hkind (name : String) (n : Node) : n.IsFunctionOf nestedGenerator name ↔ n.isFunctionNamed nestedGenerator name = true :=
    isFunctionNamed_iff.symm
  refine ⟨(hfound _).mpr ⟨nestedGeneratorRoot.preorder.take 6, generator, [], rfl, ?_, ?_, rfl⟩,
    (hnone _).mpr ⟨?_, rfl⟩⟩
  · exact (hkind _ _).mpr rfl
  · simp only [hkind]
    decide
  · simp only [hkind]
    decide

end Stepwise.Node
