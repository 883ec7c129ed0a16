import Stepwise.Text.Digit
/-!
Lexemes. Each function says how many characters of the text in front of it belong to the longest
lexeme of its class that stands there; zero means that none does.
-/

namespace Stepwise.Lexeme

/-! ### Characters -/

/-- White space, and the marks without width. -/
def blanks : List (Nat × Nat) :=
  [(0x09, 0x0D), (0x20, 0x20), (0x85, 0x85), (0xA0, 0xA0), (0x1680, 0x1680), (0x2000, 0x200B),
   (0x2028, 0x2029), (0x202F, 0x202F), (0x205F, 0x2060), (0x3000, 0x3000), (0xFEFF, 0xFEFF)]

def isBlank (c : Char) : Bool := Text.inRanges blanks c.toNat

/-- The separators of lines that end a statement; a carriage return alone does not. -/
def endsLine (c : Char) : Bool := c = '\n' || c = '\u2028' || c = '\u2029'

/-- The separators of lines that end a comment. -/
def endsComment (c : Char) : Bool := c = '\r' || endsLine c

def isHex (c : Char) : Bool :=
  c.isDigit || ('a' ≤ c && c ≤ 'f') || ('A' ≤ c && c ≤ 'F')

def isOctal (c : Char) : Bool := '0' ≤ c && c ≤ '7'

def isBit (c : Char) : Bool := c = '0' || c = '1'

/-- The characters that never belong to a word. -/
def punctuation : List Char := ":;\x60\"'@#.,|^&<=>+-*/\\%?!~()[]\x7b\x7d".toList

/-- Whether a character can stand in a word; the first one is no digit. -/
def isWordChar (c : Char) : Bool := 0x20 ≤ c.toNat && !isBlank c && !punctuation.contains c

/-! ### Escapes -/

/-- The hexadecimal digits of a bracketed escape, with the closing bracket. -/
def bracketed (cs : List Char) : Nat :=
  let digits := cs.takeWhile isHex
  if digits.isEmpty then 0
  else if cs[digits.length]? = some '\x7d' then digits.length + 1 else 0

/-- The escape of a code point by four digits or by digits in brackets. -/
def unicodeEscape : List Char → Nat
  | '\\' :: 'u' :: '\x7b' :: cs => if bracketed cs = 0 then 0 else 3 + bracketed cs
  | '\\' :: 'u' :: a :: b :: c :: d :: _ => if [a, b, c, d].all isHex then 6 else 0
  | _ => 0

/-- An escape sequence in a literal. -/
def escape : List Char → Nat
  | '\\' :: 'u' :: cs => unicodeEscape ('\\' :: 'u' :: cs)
  | '\\' :: 'x' :: a :: b :: _ => if isHex a && isHex b then 4 else 0
  | '\\' :: '\r' :: '\n' :: _ => 3
  | '\\' :: c :: cs =>
    if c = 'x' then 0
    else if isOctal c then 1 + ((c :: cs).take 3 |>.takeWhile isOctal).length
    else 2
  | _ => 0

/-! ### Words -/

/-- One unit of a word: a character or an escape of one. -/
def wordUnit : List Char → Nat
  | [] => 0
  | c :: cs => if isWordChar c then 1 else unicodeEscape (c :: cs)

/-- The units of a word, as many as follow each other. -/
def wordUnits (budget cs : List Char) : Nat :=
  match budget with
  | [] => 0
  | _ :: budget =>
    let n := wordUnit cs
    if n = 0 then 0 else n + wordUnits budget (cs.drop n)

def word (cs : List Char) : Nat :=
  if (cs.head?.any Char.isDigit) then 0 else wordUnits cs cs

/-- The words that name nothing but properties. -/
def reserved : List String :=
  ["break", "case", "catch", "class", "const", "continue", "debugger", "default", "delete", "do",
   "else", "export", "extends", "false", "finally", "for", "function", "if", "import", "in",
   "instanceof", "new", "null", "return", "super", "switch", "this", "throw", "true", "try",
   "typeof", "var", "void", "while", "with"]

/-- A word that is not reserved. -/
def name (cs : List Char) : Nat :=
  let n := word cs
  if reserved.contains (String.ofList (cs.take n)) then 0 else n

/-! ### Numbers -/

/-- Digits, with single underscores between them. -/
def digits (isDigit : Char → Bool) : List Char → Nat
  | [] => 0
  | c :: cs =>
    if !isDigit c then 0
    else match cs with
      | '_' :: d :: cs => if isDigit d then 2 + digits isDigit (d :: cs) else 1
      | cs => 1 + digits isDigit cs

def decimals (cs : List Char) : Nat := digits Char.isDigit cs

def exponent : List Char → Nat
  | [] => 0
  | e :: cs =>
    if e = 'e' || e = 'E' then
      let sign := if cs.head? = some '+' || cs.head? = some '-' then 1 else 0
      let n := decimals (cs.drop sign)
      if n = 0 then 0 else 1 + sign + n
    else 0

/-- Whether digits may stand before a decimal point: zero alone, or at most one zero in front. -/
def leadsFraction : List Char → Bool
  | ['0'] => true
  | '0' :: c :: _ => '1' ≤ c && c ≤ '9'
  | _ => true

/-- The mark of an unbounded integer behind it. -/
def integerMark (cs : List Char) : Nat := if cs.head? = some 'n' then 1 else 0

/-- An integer in another base, behind its mark of two characters. -/
def based (isDigit : Char → Bool) (cs : List Char) : Nat :=
  let n := digits isDigit cs
  if n = 0 then 0 else 2 + n + integerMark (cs.drop n)

def basedNumber : List Char → Nat
  | '0' :: c :: cs =>
    if c = 'x' || c = 'X' then based isHex cs
    else if c = 'o' || c = 'O' then based isOctal cs
    else if c = 'b' || c = 'B' then based isBit cs
    else 0
  | _ => 0

def decimalNumber (cs : List Char) : Nat :=
  let n := decimals cs
  let behind := cs.drop n
  if n = 0 then
    match cs with
    | '.' :: fraction =>
      let m := decimals fraction
      if m = 0 then 0 else 1 + m + exponent (fraction.drop m)
    | _ => 0
  else if leadsFraction (cs.take n) then
    match behind with
    | '.' :: fraction =>
      let m := decimals fraction
      n + 1 + m + exponent (fraction.drop m)
    | behind => if exponent behind = 0 then n + integerMark behind else n + exponent behind
  else n + integerMark behind

def number (cs : List Char) : Nat :=
  if basedNumber cs = 0 then decimalNumber cs else basedNumber cs

/-! ### Literals -/

/-- Text in a string between its escapes. -/
def stringFragment (quote : Char) (cs : List Char) : Nat :=
  (cs.takeWhile fun c => c ≠ quote && c ≠ '\\' && c ≠ '\r' && c ≠ '\n').length

/-- Text in a template between its escapes and substitutions. -/
def templateFragment : List Char → Nat
  | [] => 0
  | '$' :: '\x7b' :: _ => 0
  | c :: cs => if c = '\x60' || c = '\\' then 0 else 1 + templateFragment cs

/-- The inside of a regular expression, up to the slash that closes it. -/
def regexPattern (inClass : Bool) : List Char → Option Nat
  | [] => none
  | '\\' :: c :: cs => if c = '\n' then none else (regexPattern inClass cs).map (2 + ·)
  | c :: cs =>
    if c = '\n' || c = '\\' then none
    else if c = '/' && !inClass then some 0
    else (regexPattern (if c = '[' then true else if c = ']' then false else inClass) cs).map (1 + ·)

/-! ### Symbols -/

/-- The symbols, longer ones first. -/
def symbols : List String :=
  [">>>=", "===", "!==", "**=", "<<=", ">>=", ">>>", "&&=", "||=", "??=", "...", "==", "!=", "<=",
   ">=", "=>", "&&", "||", "??", "?.", "++", "--", "**", "<<", ">>", "+=", "-=", "*=", "/=", "%=",
   "&=", "|=", "^=", "\x7b", "\x7d", "(", ")", "[", "]", ".", ";", ",", "<", ">", "+", "-", "*",
   "/", "%", "&", "|", "^", "!", "~", "?", ":", "=", "@", "#", "\x60", "'", "\""]

/-- The longest symbol in front; an optional chain does not end in a decimal point. -/
def symbol? (cs : List Char) : Option String :=
  match cs with
  | '?' :: '.' :: c :: _ => if c.isDigit then some "?" else some "?."
  | cs => symbols.find? fun s => s.toList.isPrefixOf cs

end Stepwise.Lexeme
