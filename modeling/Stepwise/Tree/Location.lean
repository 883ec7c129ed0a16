import Stepwise.Text
/-!
Places in a source text. Offsets and columns count bytes of the encoded text; lines start at one.
-/

namespace Stepwise

/-- A span between two places. -/
structure Location where
  startLine : Int
  startColumn : Int
  endLine : Int
  endColumn : Int
  deriving DecidableEq, Repr

namespace Location

def unknown : Location := ⟨0, 0, 0, 0⟩

def isUnknown (l : Location) : Bool := l.startLine = 0 && l.endLine = 0

def toText (l : Location) : Text :=
  if l.isUnknown then "<unknown>"
  else s!"{l.startLine}:{l.startColumn}-{l.endLine}:{l.endColumn}"

end Location

/-- A source text, measured in the bytes of its encoding. -/
structure Source where
  chars : List Char
  deriving DecidableEq, Repr

namespace Source

def ofString (s : String) : Source := ⟨s.toList⟩

/-- The number of bytes. -/
def size (s : Source) : Nat := s.chars.foldr (fun c n => c.utf8Size + n) 0

/-- The number of lines; a line break at the end opens no further one. -/
def lineCount (s : Source) : Nat :=
  s.chars.count '\n' + if s.chars.isEmpty || s.chars.getLast? = some '\n' then 0 else 1

/-- What is left behind a number of bytes. -/
def dropBytes : Nat → List Char → List Char
  | _, [] => []
  | n, c :: cs => if n = 0 then c :: cs else dropBytes (n - c.utf8Size) cs

/-- The characters that fit into a number of bytes. -/
def takeBytes : Nat → List Char → List Char
  | _, [] => []
  | n, c :: cs => if c.utf8Size ≤ n then c :: takeBytes (n - c.utf8Size) cs else []

/-- The text between two offsets. -/
def slice (s : Source) (start stop : Nat) : String :=
  .ofList (takeBytes (stop - start) (dropBytes start s.chars))

/-- Line breaks before an offset, and bytes since the last of them. -/
def point (s : Source) (offset : Nat) : Nat × Nat :=
  (takeBytes offset s.chars).foldl
    (fun (row, column) c => if c = '\n' then (row + 1, 0) else (row, column + c.utf8Size)) (0, 0)

def location (s : Source) (start stop : Nat) : Location :=
  let first := s.point start
  let last := s.point stop
  ⟨first.1 + 1, first.2, last.1 + 1, last.2⟩

end Source

end Stepwise
