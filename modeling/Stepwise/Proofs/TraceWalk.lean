import Stepwise.Replay
import Mathlib.Data.List.Basic
/-!
Walks through a trace. However a replay is moved, its position is one of the steps or before the first, each move gives the
step that it comes to, and the moves are those that their limits allow.
-/

namespace Stepwise

namespace Replay

/-- A call that moves a replay. -/
inductive Move where
  | next | previous | first | last
  | jump (place : Int)
  | reset
  deriving DecidableEq, Repr

/-- The place that a call comes to, in a trace of a length. -/
def Move.target (length : Nat) (index : Int) : Move → Int
  | next => if (length : Int) - 1 ≤ index then index else index + 1
  | previous => if 0 < index then index - 1 else index
  | first => if 0 < length then 0 else index
  | last => if 0 < length then length - 1 else index
  | jump place => if 0 ≤ place ∧ place < length then place else index
  | reset => -1

def move (r : Replay) : Move → Replay
  | .next => r.next
  | .previous => r.previous
  | .first => r.first
  | .last => r.last
  | .jump place => r.jump place
  | .reset => r.reset

/-- A replay behind some calls. -/
def after (r : Replay) (calls : List Move) : Replay := calls.foldl move r

/-- What calls give, one after the other: the step that each of them comes to. -/
def visits (r : Replay) : List Move → List (Option Step)
  | [] => []
  | call :: calls => (r.move call).current :: (r.move call).visits calls

variable (r : Replay)

theorem index_bounds : -1 ≤ r.index ∧ r.index < r.steps.length := by
  obtain ⟨steps, position⟩ := r
  cases position with
  | none =>
    simp only [index]
    omega
  | some i =>
    have := i.isLt
    simp only [index]
    omega

variable {r}

theorem eq_of_index_eq {s : Replay} (hsteps : r.steps = s.steps) (hindex : r.index = s.index) : r = s := by
  obtain ⟨steps, position⟩ := r
  obtain ⟨_, position'⟩ := s
  cases hsteps
  cases position with
  | none =>
    cases position' with
    | none => rfl
    | some j =>
      change (-1 : Int) = (j.val : Int) at hindex
      omega
  | some i =>
    cases position' with
    | none =>
      change (i.val : Int) = -1 at hindex
      omega
    | some j =>
      rw [Fin.ext (Int.ofNat_inj.mp hindex)]

theorem current_eq_none_iff : r.current = none ↔ r.index = -1 := by
  obtain ⟨steps, position⟩ := r
  cases position with
  | none => exact ⟨fun _ ↦ rfl, fun _ ↦ rfl⟩
  | some i =>
    refine ⟨nofun, fun h ↦ ?_⟩
    change (i.val : Int) = -1 at h
    omega

theorem current_eq_of_index {i : Nat} (h : r.index = i) : r.current = r.steps[i]? := by
  obtain ⟨steps, position⟩ := r
  cases position with
  | none =>
    change (-1 : Int) = (i : Int) at h
    omega
  | some j =>
    obtain rfl : j.val = i := Int.ofNat_inj.mp h
    exact (List.getElem?_eq_getElem j.isLt).symm

theorem index_jump (r : Replay) (place : Int) :
    (r.jump place).index = if 0 ≤ place ∧ place < r.steps.length then place else r.index := by
  unfold jump
  split
  next h => exact Int.toNat_of_nonneg h.1
  next => rfl

theorem steps_jump (r : Replay) (place : Int) : (r.jump place).steps = r.steps := by
  unfold jump
  split <;> rfl

theorem steps_move (r : Replay) (call : Move) : (r.move call).steps = r.steps := by
  cases call with
  | reset => rfl
  | _ => exact r.steps_jump _

theorem steps_after (r : Replay) (calls : List Move) : (r.after calls).steps = r.steps := by
  induction calls generalizing r with
  | nil => rfl
  | cons call calls ih => exact (ih _).trans (r.steps_move call)

theorem index_move (r : Replay) (call : Move) : (r.move call).index = call.target r.steps.length r.index := by
  obtain ⟨hlow, hhigh⟩ := r.index_bounds
  cases call with
  | reset => rfl
  | jump place => exact r.index_jump place
  | next | previous | first | last =>
    refine (r.index_jump _).trans ?_
    rw [Move.target]
    split_ifs <;> omega

theorem jump_of_outside {place : Int} (h : ¬ (0 ≤ place ∧ place < r.steps.length)) : r.jump place = r := dif_neg h

theorem isAtEnd_iff_next_eq : r.isAtEnd = true ↔ r.next = r := by
  have hindex : r.next.index = Move.next.target r.steps.length r.index := r.index_move .next
  rw [isAtEnd, decide_eq_true_eq, ge_iff_le]
  rw [Move.target] at hindex
  constructor
  · intro hend
    rw [if_pos hend] at hindex
    exact eq_of_index_eq (r.steps_move .next) hindex
  · intro hnext
    by_contra hend
    rw [if_neg hend, hnext] at hindex
    omega

theorem previous_next (h : 0 ≤ r.index ∧ r.index < r.steps.length - 1) : r.next.previous = r := by
  have hsteps : r.next.steps = r.steps := r.steps_move .next
  have hnext : r.next.index = Move.next.target r.steps.length r.index := r.index_move .next
  have hprevious : r.next.previous.index = Move.previous.target r.next.steps.length r.next.index := r.next.index_move .previous
  refine eq_of_index_eq ((r.next.steps_move .previous).trans hsteps) ?_
  rw [hprevious, hnext, Move.target, Move.target]
  split_ifs <;> omega

/-- Calls for the next step go on behind the place where they start, and stay on the last step. -/
theorem visits_replicate_next (n : Nat) {k : Nat} (hk : r.index + 1 = k) :
    r.visits (List.replicate n .next) =
      ((r.steps.drop k).take n).map some ++ List.replicate (n - (r.steps.length - k)) r.steps.getLast? := by
  induction n generalizing r k with
  | zero => rw [Nat.zero_sub, List.take_zero]; rfl
  | succ n ih =>
    have hbounds := r.index_bounds
    have hsteps : r.next.steps = r.steps := r.steps_move .next
    have hindex : r.next.index = Move.next.target r.steps.length r.index := r.index_move .next
    rw [Move.target] at hindex
    rw [List.replicate_succ, visits]
    change r.next.current :: r.next.visits _ = _
    by_cases hend : k < r.steps.length
    · rw [if_neg (by omega), hk] at hindex
      have hcurrent := current_eq_of_index hindex
      rw [ih (k := k + 1) (by omega), hcurrent, hsteps, List.getElem?_eq_getElem hend,
        List.drop_eq_getElem_cons hend, List.take_succ_cons, List.map_cons, List.cons_append]
      have hrest : n + 1 - (r.steps.length - k) = n - (r.steps.length - (k + 1)) := by omega
      rw [hrest]
    · rw [if_pos (by omega)] at hindex
      have hnil : r.steps.drop k = [] := List.drop_eq_nil_of_le (by omega)
      have hcurrent : r.next.current = r.steps.getLast? := by
        cases hlength : r.steps.length with
        | zero =>
          rw [List.eq_nil_of_length_eq_zero hlength]
          exact current_eq_none_iff.mpr (by omega)
        | succ length =>
          rw [current_eq_of_index (i := length) (by omega), hsteps, List.getLast?_eq_getElem?, hlength, Nat.add_sub_cancel]
      rw [ih (k := k) (by omega), hcurrent, hsteps, hnil, List.take_nil, List.take_nil, List.map_nil,
        List.nil_append, List.nil_append, ← List.replicate_succ]
      congr 1
      omega

end Replay

open Replay

/-- However a replay of a trace has been moved, it is on a step or before the first, and every further call comes to the place
that the limits allow and gives the step there, or none before the first. A jump to a place outside of the trace changes
nothing, nor does one to the first or the last step of an empty trace. Calls for the next step from the start visit the steps in
order and then stay on the last; another step in front of the last is come back to from the next one; and the end is where no
next step is come to. -/
theorem replay_walks (t : Trace) (calls : List Move) :
    let r := (ofTrace t).after calls
    (-1 ≤ r.index ∧ r.index ≤ (t.steps.length : Int) - 1) ∧
    (∀ call, (r.move call).index = call.target t.steps.length r.index ∧
      ((r.move call).current = none ↔ (r.move call).index = -1) ∧
      ∀ i : Nat, (r.move call).index = i → (r.move call).current = t.steps[i]?) ∧
    (∀ place : Int, ¬ (0 ≤ place ∧ place ≤ (t.steps.length : Int) - 1) → r.jump place = r) ∧
    (t.steps = [] → r.first = r ∧ r.last = r) ∧
    (∀ n, r.reset.visits (List.replicate n .next) =
      (t.steps.take n).map some ++ List.replicate (n - t.steps.length) t.steps.getLast?) ∧
    (0 ≤ r.index ∧ r.index < (t.steps.length : Int) - 1 → r.next.previous = r) ∧
    (r.isAtEnd = true ↔ r.next = r) := by
  intro r
  have hsteps : r.steps = t.steps := (ofTrace t).steps_after calls
  obtain ⟨hlow, hhigh⟩ := r.index_bounds
  rw [← hsteps]
  refine ⟨⟨hlow, by omega⟩, fun call ↦ ⟨r.index_move call, current_eq_none_iff, fun i hi ↦ ?_⟩, fun place hplace ↦ ?_,
    fun hempty ↦ ?_, fun n ↦ ?_, previous_next, isAtEnd_iff_next_eq⟩
  · rw [current_eq_of_index hi, r.steps_move call]
  · exact jump_of_outside (by omega)
  · have hlength := congrArg List.length hempty
    rw [List.length_nil] at hlength
    exact ⟨jump_of_outside (by omega), jump_of_outside (by omega)⟩
  · exact visits_replicate_next (r := r.reset) n (k := 0) rfl

/-- A trace of two steps. -/
def twoSteps : Trace where
  steps := [⟨1, 1, 0, [], {}⟩, ⟨2, 2, 0, [], {}⟩]

theorem replay_walks_twoSteps :
    let r := (ofTrace twoSteps).after [.last, .jump 2, .previous]
    r.index = 0 ∧ r.next.previous = r ∧
      r.reset.visits (List.replicate 3 .next) = (twoSteps.steps ++ twoSteps.steps.drop 1).map some := by
  obtain ⟨-, -, -, -, hvisits, hback, -⟩ := replay_walks twoSteps [.last, .jump 2, .previous]
  exact ⟨rfl, hback ⟨by decide, by decide⟩, hvisits 3⟩

end Stepwise
