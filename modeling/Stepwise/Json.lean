import Stepwise.Number
/-!
JSON documents with ordered members, and their two written forms: compact, and indented with every
character beyond ASCII as an escape.
-/

namespace Stepwise

inductive Json where
  | null
  | boolean (b : Bool)
  | number (n : Num)
  | string (t : Text)
  | array (items : List Json)
  | object (members : List (Text × Json))

namespace Json

def ofInt (i : Int) : Json := number (.int i)

def ofString (s : String) : Json := string (Text.ofString s)

/-- An object with plain keys. -/
def record (members : List (String × Json)) : Json :=
  object (members.map fun m => (Text.ofString m.1, m.2))

/-- Integers exactly, doubles with the fewest digits that read back. -/
def numberText : Num → Text
  | .int i => .ofInt i
  | .float x => x.toText

/-- One UTF-16 unit as an escape. -/
def unitEscape (unit : Nat) : Text := Text.ofString "\\u" ++ Text.hexadecimal 4 unit

/-- A code point inside quotes: quotes, backslashes and controls are escaped; the ASCII form also
escapes what is not printable ASCII, as UTF-16 units. -/
def escaped (ascii : Bool) (p : CodePoint) : Text :=
  if p = CodePoint.ofChar '"' then "\\\""
  else if p = CodePoint.ofChar '\\' then "\\\\"
  else if p = CodePoint.ofChar '\n' then "\\n"
  else if p = CodePoint.ofChar '\r' then "\\r"
  else if p = CodePoint.ofChar '\t' then "\\t"
  else if p.val = 8 then "\\b"
  else if p.val = 12 then "\\f"
  else if p.val < 0x20 then unitEscape p.val
  else if !ascii || p.val < 0x7F then [p]
  else if p.val < 0x10000 then unitEscape p.val
  else
    unitEscape (0xD800 + (p.val - 0x10000) / 0x400) ++ unitEscape (0xDC00 + (p.val - 0x10000) % 0x400)

def stringText (ascii : Bool) (t : Text) : Text :=
  Text.ofString "\"" ++ t.flatMap (escaped ascii) ++ Text.ofString "\""

mutual
/-- The written form without blanks, in ASCII or with all characters as they are. -/
def compact (ascii : Bool) : Json → Text
  | null => "null"
  | boolean b => if b then "true" else "false"
  | number n => numberText n
  | string t => stringText ascii t
  | array items => Text.ofString "[" ++ Text.join "," (compactItems ascii items) ++ Text.ofString "]"
  | object members =>
    Text.ofString "\x7b" ++ Text.join "," (compactMembers ascii members) ++ Text.ofString "\x7d"

def compactItems (ascii : Bool) : List Json → List Text
  | [] => []
  | item :: items => item.compact ascii :: compactItems ascii items

def compactMembers (ascii : Bool) : List (Text × Json) → List Text
  | [] => []
  | (key, value) :: members =>
    (stringText ascii key ++ Text.ofString ":" ++ value.compact ascii) ::
      compactMembers ascii members
end

/-- A line break and the indentation of a depth. -/
def lineBreak (depth : Nat) : Text :=
  CodePoint.ofChar '\n' :: List.replicate (2 * depth) (CodePoint.ofChar ' ')

/-- Brackets around items, each on a line of its own. -/
def bracketed (opening closing : String) (depth : Nat) (items : List Text) : Text :=
  if items.isEmpty then Text.ofString opening ++ Text.ofString closing
  else
    Text.ofString opening ++ lineBreak (depth + 1) ++
      Text.join (CodePoint.ofChar ',' :: lineBreak (depth + 1)) items ++
      lineBreak depth ++ Text.ofString closing

mutual
/-- The written form with each item on a line, indented by two blanks a level. -/
def indented (depth : Nat) : Json → Text
  | null => "null"
  | boolean b => if b then "true" else "false"
  | number n => numberText n
  | string t => stringText true t
  | array items => bracketed "[" "]" depth (indentedItems (depth + 1) items)
  | object members => bracketed "\x7b" "\x7d" depth (indentedMembers (depth + 1) members)

def indentedItems (depth : Nat) : List Json → List Text
  | [] => []
  | item :: items => item.indented depth :: indentedItems depth items

def indentedMembers (depth : Nat) : List (Text × Json) → List Text
  | [] => []
  | (key, value) :: members =>
    (stringText true key ++ Text.ofString ": " ++ value.indented depth) ::
      indentedMembers depth members
end

end Json

end Stepwise
