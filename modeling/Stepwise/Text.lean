/-!
Texts of a traced program: sequences of code points, lone surrogates included. Lengths, indices
and order count code points.
-/

namespace Stepwise

/-- A Unicode code point; surrogates are admitted, because an escape may name one. -/
abbrev CodePoint := Fin 0x110000

abbrev Text := List CodePoint

namespace CodePoint

def ofChar (c : Char) : CodePoint :=
  ⟨c.toNat, by
    have h := c.valid
    have e : c.val.toNat = c.toNat := rfl
    simp only [UInt32.isValidChar, Nat.isValidChar] at h
    omega⟩

/-- The character of a code point; a surrogate has none. -/
def toChar? (p : CodePoint) : Option Char :=
  if h : Nat.isValidChar p.val then some (Char.ofNatAux p.val h) else none

def isAscii (p : CodePoint) : Bool := p.val < 0x80

end CodePoint

namespace Text

def ofChars (cs : List Char) : Text := cs.map CodePoint.ofChar

def ofString (s : String) : Text := ofChars s.toList

instance : Coe String Text := ⟨ofString⟩

/-- The characters of a text without surrogates. -/
def toChars? (t : Text) : Option (List Char) := t.mapM CodePoint.toChar?

/-- The string of a text without surrogates. -/
def toString? (t : Text) : Option String := t.toChars?.map String.ofList

def ofNat (n : Nat) : Text := ofChars (Nat.toDigits 10 n)

def ofInt (i : Int) : Text :=
  if i < 0 then CodePoint.ofChar '-' :: ofNat i.natAbs else ofNat i.natAbs

/-- The parts in order, with the separator between each two. -/
def join (separator : Text) : List Text → Text
  | [] => []
  | [t] => t
  | t :: ts => t ++ separator ++ join separator ts

/-- Splits at every occurrence of a code point, which is in none of the pieces. -/
def splitAt (mark : CodePoint) : Text → List Text
  | [] => [[]]
  | p :: t =>
    match splitAt mark t with
    | [] => [[p]]
    | piece :: pieces => if p = mark then [] :: piece :: pieces else (p :: piece) :: pieces

def lines (t : Text) : List Text := t.splitAt (CodePoint.ofChar '\n')

/-- Fills up with blanks in front, to at least the given width. -/
def padLeft (width : Nat) (t : Text) : Text :=
  List.replicate (width - t.length) (CodePoint.ofChar ' ') ++ t

/-- Fills up with blanks behind, to at least the given width. -/
def padRight (width : Nat) (t : Text) : Text :=
  t ++ List.replicate (width - t.length) (CodePoint.ofChar ' ')

end Text

end Stepwise
