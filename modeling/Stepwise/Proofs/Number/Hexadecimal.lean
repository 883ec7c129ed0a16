import Stepwise.Proofs.Number.Numeral
import Mathlib.Data.List.Forall2
import Mathlib.Data.Nat.Digits.Defs
/-!
Hexadecimal numerals. Digits of either case are read as the number that they write, whatever zeros are in front.
-/

namespace Stepwise.Numeral

variable {c : Char} {cs : List Char} {d n : Nat} {ds : List Nat}

/-- The hexadecimal digits with their values, letters of either case. -/
def hexadecimalDigits : List (Char × Nat) := "0123456789abcdef".toList.zipIdx ++ "ABCDEF".toList.zipIdx 10

def IsHexadecimalDigit (c : Char) (d : Nat) : Prop := (c, d) ∈ hexadecimalDigits

/-- One or more hexadecimal digits that write a number, the last one being that of the units. -/
def Writes (cs : List Char) (n : Nat) : Prop :=
  cs ≠ [] ∧ ∃ ds, List.Forall₂ IsHexadecimalDigit cs ds ∧ Nat.ofDigits 16 ds.reverse = n

theorem IsHexadecimalDigit.value (h : IsHexadecimalDigit c d) : (digitValue? c).filter (· < 16) = some d := by
  have hall : ∀ e ∈ hexadecimalDigits, (digitValue? e.1).filter (· < 16) = some e.2 := by decide
  exact hall _ h

theorem IsHexadecimalDigit.plain (h : IsHexadecimalDigit c d) :
    c ∉ ['_', '-', '+'] ∧ announcedBase? c ≠ some 16 ∧ 32 < c.toNat ∧ c.toNat < 128 := by
  have hall : ∀ e ∈ hexadecimalDigits, e.1 ∉ ['_', '-', '+'] ∧ announcedBase? e.1 ≠ some 16 ∧ 32 < e.1.toNat ∧ e.1.toNat < 128 := by
    decide
  exact hall _ h

theorem digitsFrom?_of_forall₂ (h : List.Forall₂ IsHexadecimalDigit cs ds) (behindDigit : Bool) (n : Nat)
    (hempty : cs = [] → behindDigit = true) :
    digitsFrom? 16 behindDigit n cs = some (ds.foldl (fun n d ↦ n * 16 + d) n) := by
  induction h generalizing behindDigit n with
  | nil =>
    rw [hempty rfl]
    rfl
  | cons hdigit _ ih =>
    rw [digitsFrom?, hdigit.value]
    · exact ih true _ fun _ ↦ rfl
    · rintro rfl
      exact hdigit.plain.1 List.mem_cons_self

theorem digits?_of_writes (h : Writes cs n) : digits? 16 cs = some n := by
  obtain ⟨hne, ds, hdigits, rfl⟩ := h
  have hvalue : Nat.ofDigits 16 ds.reverse = ds.foldl (fun n d ↦ n * 16 + d) 0 := by
    rw [Nat.ofDigits_eq_foldr, List.foldr_reverse]
    simp only [Nat.cast_id, Nat.add_comm, Nat.mul_comm]
  rw [digits?, digitsFrom?_of_forall₂ hdigits false 0 fun hnil ↦ absurd hnil hne, hvalue]

theorem Writes.exists_digit (h : Writes cs n) : ∀ c ∈ cs, ∃ d, IsHexadecimalDigit c d := by
  obtain ⟨-, ds, hdigits, -⟩ := h
  induction hdigits with
  | nil => exact List.forall_mem_nil _
  | cons hdigit _ ih => exact List.forall_mem_cons.mpr ⟨⟨_, hdigit⟩, ih⟩

theorem hexadecimal?_of_writes (h : Writes cs n) : hexadecimal? (.ofChars cs) = some (n : Int) := by
  have hplain {c : Char} (hc : c ∈ cs) :
      c ∉ ['_', '-', '+'] ∧ announcedBase? c ≠ some 16 ∧ 32 < c.toNat ∧ c.toNat < 128 := by
    obtain ⟨d, hd⟩ := h.exists_digit c hc
    exact hd.plain
  obtain ⟨c, rest, rfl⟩ := List.exists_cons_of_ne_nil h.1
  have hfirst := (hplain List.mem_cons_self).1
  rw [hexadecimal?, characters_ofChars fun c hc ↦ (hplain hc).2.2, signed?]
  · split
    next c' cs' heq =>
      have hc' : c' ∈ c :: rest := heq ▸ List.mem_cons_of_mem _ List.mem_cons_self
      rw [if_neg (hplain hc').2.1, ← heq, digits?_of_writes h]
      rfl
    next =>
      rw [digits?_of_writes h]
      rfl
  · intro cs' heq
    rw [(List.cons.inj heq).1] at hfirst
    exact hfirst (by decide)
  · intro cs' heq
    rw [(List.cons.inj heq).1] at hfirst
    exact hfirst (by decide)

theorem exists_writes (n : Nat) : ∃ cs, Writes cs n := by
  have hchar : ∀ d < 16, IsHexadecimalDigit (Nat.digitChar d) d := by
    unfold IsHexadecimalDigit
    decide
  have hdigits : ∀ d ∈ 0 :: (Nat.digits 16 n).reverse, IsHexadecimalDigit (Nat.digitChar d) d :=
    List.forall_mem_cons.mpr ⟨hchar 0 (by decide), fun d hd ↦
      hchar d (Nat.digits_lt_base (by decide) (List.mem_reverse.mp hd))⟩
  refine ⟨_, List.cons_ne_nil (Nat.digitChar 0) _, 0 :: (Nat.digits 16 n).reverse,
    List.forall₂_map_left_iff.mpr (List.forall₂_same.mpr hdigits), ?_⟩
  rw [List.reverse_cons, List.reverse_reverse, Nat.ofDigits_append, Nat.ofDigits_digits, Nat.ofDigits_singleton, Nat.mul_zero,
    Nat.add_zero]

end Stepwise.Numeral
