import Stepwise.Tree.Location
import Mathlib.Data.List.Basic
/-!
Slices of a source text. Offsets between characters cut the text into slices, and the slices on both sides of such an offset
make up the slice over both.
-/

namespace Stepwise

namespace Source

variable {source : Source} {front mid back cs : List Char} {a b c n : Nat}

/-- The number of bytes of some characters. -/
def width (cs : List Char) : Nat := size ⟨cs⟩

theorem width_cons (c : Char) (cs : List Char) : width (c :: cs) = c.utf8Size + width cs := rfl

theorem width_append (front back : List Char) : width (front ++ back) = width front + width back := by
  induction front with
  | nil => exact (Nat.zero_add _).symm
  | cons c front ih => rw [List.cons_append, width_cons, width_cons, ih, Nat.add_assoc]

theorem eq_nil_of_width_eq_zero (h : width cs = 0) : cs = [] := by
  cases cs with
  | nil => rfl
  | cons c cs =>
    have hpos := c.utf8Size_pos
    rw [width_cons] at h
    omega

theorem dropBytes_zero (cs : List Char) : dropBytes 0 cs = cs := by
  cases cs with
  | nil => rfl
  | cons c cs => rw [dropBytes, if_pos rfl]

theorem takeBytes_zero (cs : List Char) : takeBytes 0 cs = [] := by
  cases cs with
  | nil => rfl
  | cons c cs =>
    have hpos := c.utf8Size_pos
    rw [takeBytes, if_neg (by omega)]

theorem dropBytes_width (front back : List Char) : dropBytes (width front) (front ++ back) = back := by
  induction front with
  | nil => exact dropBytes_zero back
  | cons c front ih =>
    have hpos := c.utf8Size_pos
    rw [List.cons_append, width_cons, dropBytes, if_neg (by omega), Nat.add_sub_cancel_left, ih]

theorem takeBytes_width (front back : List Char) : takeBytes (width front) (front ++ back) = front := by
  induction front with
  | nil => exact takeBytes_zero back
  | cons c front ih => rw [List.cons_append, width_cons, takeBytes, if_pos (Nat.le_add_right _ _), Nat.add_sub_cancel_left, ih]

/-- An offset between two characters, or at an end of the text. -/
def IsBoundary (source : Source) (n : Nat) : Prop := ∃ front back, source.chars = front ++ back ∧ width front = n

theorem IsBoundary.exists_between (ha : source.IsBoundary a) (hb : source.IsBoundary b) (hab : a ≤ b) :
    ∃ front mid back, source.chars = front ++ (mid ++ back) ∧ width front = a ∧ width (front ++ mid) = b := by
  obtain ⟨front, behind, hfront, rfl⟩ := ha
  obtain ⟨front', back, hfront', rfl⟩ := hb
  rcases List.append_eq_append_iff.mp (hfront.symm.trans hfront') with ⟨mid, rfl, rfl⟩ | ⟨mid, rfl, rfl⟩
  · exact ⟨front, mid, back, hfront, rfl, rfl⟩
  · have hmid : mid = [] := eq_nil_of_width_eq_zero (by rw [width_append] at hab; omega)
    subst hmid
    exact ⟨front', [], behind, hfront', (congrArg width (List.append_nil _)).symm, congrArg width (List.append_nil _)⟩

theorem slice_eq (h : source.chars = front ++ (mid ++ back)) (ha : width front = a) (hb : width (front ++ mid) = b) :
    source.slice a b = .ofList mid := by
  have hwidth : b - a = width mid := by
    rw [← ha, ← hb, width_append, Nat.add_sub_cancel_left]
  rw [slice, h, hwidth, ← ha, dropBytes_width, takeBytes_width]

theorem slice_of_le (h : b ≤ a) : source.slice a b = "" := by
  rw [slice, Nat.sub_eq_zero_of_le h, takeBytes_zero]

/-- Slices on both sides of an offset between characters make up the slice over both. -/
theorem slice_append (ha : source.IsBoundary a) (hb : source.IsBoundary b) (hc : source.IsBoundary c) (hab : a ≤ b)
    (hbc : b ≤ c) :
    source.slice a b ++ source.slice b c = source.slice a c := by
  obtain ⟨front, mid, back, hchars, hwidth, hwidth'⟩ := ha.exists_between hb hab
  obtain ⟨front', mid', back', hchars', hwidthb, hwidthc⟩ := hb.exists_between hc hbc
  have hfront : front' = front ++ mid := by
    rw [← takeBytes_width front' (mid' ++ back'), ← hchars', hwidthb, ← hwidth', hchars, ← List.append_assoc,
      takeBytes_width]
  subst hfront
  have hover : source.chars = front ++ ((mid ++ mid') ++ back') := by
    rw [hchars']
    simp only [List.append_assoc]
  rw [slice_eq hchars hwidth hwidth', slice_eq hchars' hwidthb hwidthc,
    slice_eq hover hwidth (by rw [← List.append_assoc]; exact hwidthc), String.ofList_append]

theorem size_utf8Encode (cs : List Char) : cs.utf8Encode.size = width cs := by
  induction cs with
  | nil => rfl
  | cons c cs ih =>
    have hsize : [c].utf8Encode.size = c.utf8Size := by
      rw [List.utf8Encode_singleton, List.size_toByteArray, String.length_utf8EncodeChar]
    rw [List.utf8Encode_cons, ByteArray.size_append, hsize, ih, width_cons]

theorem toByteArray_slice (ha : source.IsBoundary a) (hb : source.IsBoundary b) :
    (source.slice a b).toByteArray = (String.ofList source.chars).toByteArray.extract a b := by
  rcases Nat.le_total a b with hab | hba
  · obtain ⟨front, mid, back, hchars, hfront, hmid⟩ := ha.exists_between hb hab
    rw [slice_eq hchars hfront hmid, String.toByteArray_ofList, String.toByteArray_ofList, hchars, List.utf8Encode_append,
      List.utf8Encode_append, ← hfront, ← hmid, width_append, ← size_utf8Encode, ← size_utf8Encode,
      ← Nat.add_zero front.utf8Encode.size, Nat.add_assoc, ByteArray.extract_append_size_add, Nat.zero_add,
      ByteArray.extract_append_eq_left rfl]
  · rw [slice_of_le hba, eq_comm]
    exact ByteArray.extract_eq_empty_iff.mpr (Nat.le_trans (Nat.min_le_left _ _) hba)

end Source

end Stepwise
