import Mathlib.Data.List.Perm.Subperm
import Mathlib.Data.List.Range
import Stepwise.Grammar.Pattern
import Stepwise.Proofs.ParameterBinding
/-!
Lists in brackets, as they are laid out. Commas divide such a list into slots, and a slot without an element is a hole. The
readings of the elements know their slots; where no element has a hole in front of it, the slots are just the places among
the elements.
-/

namespace Stepwise

namespace Node

/-- Whether a node is an element of the list in brackets that it stands in. -/
def isElement (n : Node) : Bool := !n.isComma && (n.label.named && !n.kind.isComment)

/-- The elements among some nodes, each with the number of commas before it. -/
def laidOut (ns : List Node) : List (Nat × Node) :=
  ns.zipIdx.filterMap fun e ↦ if e.1.isElement then some ((ns.take e.2).countP isComma, e.1) else none

/-- The elements of a list in brackets, each with its slot. -/
def layout (n : Node) : List (Nat × Node) := laidOut n.children

/-- Between two elements there is a comma, and no element has a hole in front of it. -/
structure IsPacked (n : Node) : Prop where
  divided : (n.layout.map Prod.fst).Nodup
  filled : ∀ e ∈ n.layout, ∀ i < e.1, i ∈ n.layout.map Prod.fst

theorem laidOut_cons (n : Node) (ns : List Node) : laidOut (n :: ns) =
    (if n.isElement then [(0, n)] else []) ++
      (laidOut ns).map fun e ↦ (e.1 + (if n.isComma then 1 else 0), e.2) := by
  have hrest : (ns.zipIdx 1).filterMap (fun e ↦
      if e.1.isElement then some (((n :: ns).take e.2).countP isComma, e.1) else none) =
      (laidOut ns).map fun e ↦ (e.1 + (if n.isComma then 1 else 0), e.2) := by
    rw [List.zipIdx_succ, List.filterMap_map, laidOut, List.map_filterMap]
    refine List.filterMap_congr fun e _ ↦ ?_
    simp only [Function.comp_apply]
    split
    next => rw [List.take_succ_cons, List.countP_cons, Option.map_some]
    next => rfl
  unfold laidOut
  rw [List.zipIdx_cons, List.filterMap_cons, hrest]
  by_cases helement : n.isElement
  · rw [if_pos helement, if_pos helement]
    rfl
  · rw [if_neg helement, if_neg helement]
    rfl

theorem kind_read (source : Source) (n : Node) : (n.read source).kind = n.kind :=
  congrArg Label.kind (label_read source n)

/-- A reading knows the slots of the elements. -/
theorem slotted_readAll {α : Type} (source : Source) (f : Reading → α) (k : Nat) (ns : List Node) :
    Reading.slotted f k (readAll source ns) = (laidOut ns).map fun e ↦ (k + e.1, f (e.2.read source)) := by
  induction ns generalizing k with
  | nil => rfl
  | cons n ns ih =>
    have hcomma : (n.read source).isComma = n.isComma := by
      rw [Reading.isComma, Reading.kind, label_read]
      rfl
    rw [readAll, Reading.slotted, laidOut_cons, ih, ih, hcomma, label_read, kind_read, isElement, List.map_append,
      List.map_map]
    have hsame : (laidOut ns).map (fun e ↦ (k + e.1, f (e.2.read source))) =
        (laidOut ns).map ((fun e ↦ (k + e.1, f (e.2.read source))) ∘ fun e ↦ (e.1 + 0, e.2)) :=
      List.map_congr_left fun e _ ↦ rfl
    by_cases hn : n.isComma
    · rw [if_pos hn, if_neg (by simp [hn])]
      refine List.map_congr_left fun e _ ↦ ?_
      rw [Function.comp_apply, if_pos hn, Nat.add_right_comm, Nat.add_assoc]
    · rw [Bool.not_eq_true] at hn
      by_cases hnamed : (n.label.named && !n.kind.isComment) = true
      · simp only [hn, hnamed, Bool.false_eq_true, if_false, if_true, Bool.not_false, Bool.and_self, hsame]
        rfl
      · simp only [hn, hnamed, Bool.false_eq_true, if_false, Bool.not_false, Bool.true_and, hsame]
        rfl

theorem laidOut_sorted (ns : List Node) : ((laidOut ns).map Prod.fst).Pairwise (· ≤ ·) := by
  induction ns with
  | nil => exact .nil
  | cons n ns ih =>
    have hrest : ((laidOut ns).map fun e ↦ e.1 + (if n.isComma then 1 else 0)).Pairwise (· ≤ ·) := by
      rw [List.pairwise_map] at ih ⊢
      exact ih.imp fun hle ↦ Nat.add_le_add_right hle _
    rw [laidOut_cons, List.map_append, List.map_map]
    split
    next => exact List.pairwise_cons.mpr ⟨fun i _ ↦ Nat.zero_le i, hrest⟩
    next => exact hrest

/-- Where no element has a hole in front of it, its slot is its place among the elements. -/
theorem IsPacked.slots_eq {n : Node} (h : n.IsPacked) : n.layout.map Prod.fst = List.range n.layout.length := by
  have hlt : ∀ i ∈ n.layout.map Prod.fst, i < n.layout.length := by
    intro i hi
    obtain ⟨e, he, rfl⟩ := List.mem_map.mp hi
    have hbelow : List.range (e.1 + 1) ⊆ n.layout.map Prod.fst := by
      intro j hj
      rcases Nat.lt_succ_iff_lt_or_eq.mp (List.mem_range.mp hj) with hlt | rfl
      · exact h.filled e he j hlt
      · exact hi
    have hle := (List.subperm_of_subset List.nodup_range hbelow).length_le
    rwa [List.length_range, List.length_map] at hle
  have hsub : n.layout.map Prod.fst ⊆ List.range n.layout.length := fun i hi ↦ List.mem_range.mpr (hlt i hi)
  have hperm : (n.layout.map Prod.fst).Perm (List.range n.layout.length) := by
    apply (List.subperm_of_subset h.divided hsub).perm_of_length_le
    rw [List.length_range, List.length_map]
  have hanti : ∀ i j, i ∈ n.layout.map Prod.fst → j ∈ List.range n.layout.length → i ≤ j → j ≤ i → i = j :=
    fun _ _ _ _ ↦ Nat.le_antisymm
  exact hperm.eq_of_pairwise hanti (laidOut_sorted n.children) List.pairwise_le_range

theorem isPacked_of_slots {n : Node} (h : n.layout.map Prod.fst = List.range n.layout.length) : n.IsPacked := by
  refine ⟨h ▸ List.nodup_range, fun e he i hi ↦ ?_⟩
  have hmem : e.1 ∈ n.layout.map Prod.fst := List.mem_map_of_mem he
  rw [h, List.mem_range] at hmem ⊢
  exact hi.trans hmem

/-- Whether an element of an array pattern is something to put a value in. -/
def isTarget (n : Node) : Bool := n.kind = .identifier || n.kind = .memberExpression || n.kind = .subscriptExpression

theorem slot_read (source : Source) (n : Node) : (n.read source).slot =
    if n.isTarget then .target (n.text source) (n.read source).place else .unsupported n.kind.name (n.location source) := by
  obtain ⟨label, children⟩ := n
  have hread (kind : Kind) (text : String) (location : Location) (place : Place) :
      Reading.readSlot kind text location place =
        if kind = .identifier || kind = .memberExpression || kind = .subscriptExpression then .target text place
        else .unsupported kind.name location := by
    unfold Reading.readSlot
    split
    next => rfl
    next => rfl
    next => rfl
    next hname hmember hsubscript =>
      rw [if_neg]
      simp only [Bool.or_eq_true, decide_eq_true_eq, not_or]
      exact ⟨⟨hname, hmember⟩, hsubscript⟩
  exact hread label.kind _ _ _

theorem slots_read (source : Source) (n : Node) :
    (n.read source).slots = n.layout.map fun e ↦ (e.1, (e.2.read source).slot) := by
  obtain ⟨label, children⟩ := n
  have hslots : ((mk label children).read source).slots = Reading.slotted Reading.slot 0 (readAll source children) := rfl
  rw [hslots, slotted_readAll]
  simp only [Nat.zero_add]
  rfl

theorem expr_read (source : Source) (n : Node) : (n.read source).expr =
    Reading.readExpr source n.label (n.text source) (n.location source) (readAll source n.children) := by
  obtain ⟨label, children⟩ := n
  rfl

theorem expr_read_of_array (source : Source) {n : Node} (h : n.kind = .array) :
    (n.read source).expr = .array (n.layout.map fun e ↦ (e.1, (e.2.read source).expr)) := by
  have hkind : n.label.kind = .array := h
  rw [expr_read]
  unfold Reading.readExpr
  rw [hkind]
  dsimp only
  rw [slotted_readAll]
  simp only [Nat.zero_add]
  rfl

end Node

end Stepwise
