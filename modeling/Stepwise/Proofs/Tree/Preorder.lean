import Stepwise.Tree
import Mathlib.Data.List.Basic
/-!
Nodes in document order. A search that tests each node before its children, and stops where it succeeds, finds the first match
in this order. It may leave out what is inside of a node as long as no match is there.
-/

namespace Stepwise.Node

variable {wanted enters : Node → Bool} {n : Node}

/-- A search over nodes and lists of nodes that tests each node first, and looks inside of those that it enters. -/
structure IsSearch (wanted enters : Node → Bool) (search : Node → Option Node) (searchAmong : List Node → Option Node) :
    Prop where
  node : ∀ label children, search (mk label children) =
    if wanted (mk label children) then some (mk label children)
    else if enters (mk label children) then searchAmong children
    else none
  nil : searchAmong [] = none
  cons : ∀ n ns, searchAmong (n :: ns) = (search n).or (searchAmong ns)

namespace IsSearch

variable {search : Node → Option Node} {searchAmong : List Node → Option Node}
  (hsearch : IsSearch wanted enters search searchAmong)

include hsearch

mutual

/-- A search that only passes by nodes without a match inside finds the first match in document order. -/
theorem eq_find? : (root : Node) →
    (∀ n ∈ root.preorder, enters n = false → ∀ m ∈ n.preorder, wanted m = false) →
    search root = root.preorder.find? wanted
  | .mk label children, h => by
    rw [hsearch.node, preorder]
    by_cases hwanted : wanted (.mk label children) = true
    · rw [if_pos hwanted, List.find?_cons_of_pos hwanted]
    · rw [if_neg hwanted, List.find?_cons_of_neg hwanted]
      cases henters : enters (.mk label children) with
      | true =>
        rw [if_pos rfl]
        exact among_eq_find? children fun n hn ↦ h n (List.mem_cons_of_mem _ hn)
      | false =>
        rw [if_neg Bool.false_ne_true, eq_comm, List.find?_eq_none]
        intro m hm
        rw [h _ List.mem_cons_self henters m (List.mem_cons_of_mem _ hm)]
        exact Bool.false_ne_true

theorem among_eq_find? : (ns : List Node) →
    (∀ n ∈ preorderAll ns, enters n = false → ∀ m ∈ n.preorder, wanted m = false) →
    searchAmong ns = (preorderAll ns).find? wanted
  | [], _ => hsearch.nil
  | n :: ns, h => by
    obtain ⟨hn, hns⟩ := List.forall_mem_append.mp h
    rw [hsearch.cons, preorderAll, List.find?_append, eq_find? n hn, among_eq_find? ns hns]

end

end IsSearch

mutual

theorem exists_preorder_eq : (root : Node) → ∀ {before behind}, root.preorder = before ++ n :: behind →
    ∃ after, root.preorder = before ++ (n.preorder ++ after)
  | mk label children, before, behind, h => by
    rw [preorder] at h ⊢
    rcases List.cons_eq_append_iff.mp h with ⟨rfl, hroot⟩ | ⟨before, rfl, hchildren⟩
    · cases hroot
      exact ⟨[], (List.append_nil _).symm⟩
    · obtain ⟨after, hafter⟩ := exists_preorderAll_eq children hchildren
      exact ⟨after, congrArg _ hafter⟩

theorem exists_preorderAll_eq : (ns : List Node) → ∀ {before behind}, preorderAll ns = before ++ n :: behind →
    ∃ after, preorderAll ns = before ++ (n.preorder ++ after)
  | [], before, behind, h => absurd h.symm (List.append_ne_nil_of_right_ne_nil _ (List.cons_ne_nil _ _))
  | m :: ns, before, behind, h => by
    rw [preorderAll] at h ⊢
    -- the node is among those of the first one, or behind them
    rcases List.append_eq_append_iff.mp h with ⟨rest, rfl, hns⟩ | ⟨rest, hm, hrest⟩
    · obtain ⟨after, hafter⟩ := exists_preorderAll_eq ns hns
      exact ⟨after, by rw [hafter, List.append_assoc]⟩
    · cases rest with
      | nil =>
        have hns : preorderAll ns = [] ++ n :: behind := hrest.symm
        obtain ⟨after, hafter⟩ := exists_preorderAll_eq ns hns
        exact ⟨after, by rw [hm, hafter, List.append_nil, List.nil_append]⟩
      | cons n' rest =>
        obtain ⟨rfl, rfl⟩ := List.cons.inj hrest
        obtain ⟨after, hafter⟩ := exists_preorder_eq m hm
        exact ⟨after ++ preorderAll ns, by rw [hafter, List.append_assoc, List.append_assoc]⟩

end

end Stepwise.Node
