import Stepwise.Tree.Kind
import Stepwise.Tree.Location
/-!
Concrete syntax trees: every token of a source text has a node, named or anonymous. Here are the
checks and views that need no evaluation: the first error of a tree, its outline, and the search
for a function by name.
-/

namespace Stepwise

/-- What a node says about itself: its kind, its span in bytes, and its role in its parent. -/
structure Label where
  kind : Kind
  start : Nat
  stop : Nat
  field : Option String
  named : Bool
  missing : Bool
  flagged : Bool
  deriving DecidableEq, Repr

inductive Node where
  | mk (label : Label) (children : List Node)
  deriving Repr

namespace Node

def label : Node → Label
  | mk label _ => label

def children : Node → List Node
  | mk _ children => children

def kind (n : Node) : Kind := n.label.kind

def text (source : Source) (n : Node) : String := source.slice n.label.start n.label.stop

def location (source : Source) (n : Node) : Location :=
  source.location n.label.start n.label.stop

/-- The first child that plays a role. -/
def child? (field : String) (n : Node) : Option Node :=
  n.children.find? (·.label.field == some field)

/-- A node without children. -/
def leaf (kind : Kind) (named : Bool) (start stop : Nat) : Node :=
  mk ⟨kind, start, stop, none, named, false, false⟩ []

/-- A node that spans its children. -/
def branch (kind : Kind) (children : List Node) : Node :=
  let start := (children.head?.map (·.label.start)).getD 0
  let stop := (children.getLast?.map (·.label.stop)).getD 0
  mk ⟨kind, start, stop, none, true, false, false⟩ children

/-- The same node in a role. -/
def inRole (field : String) : Node → Node
  | mk label children => mk { label with field := some field } children

/-- The same node of another kind. -/
def ofKind (kind : Kind) : Node → Node
  | mk label children => mk { label with kind } children

def isBad (n : Node) : Bool := n.kind = .error || n.label.missing

mutual
/-- Whether a node is flagged as erroneous, or is or holds an error or a missing token. -/
def hasError : Node → Bool
  | mk label children =>
    label.kind = .error || label.missing || label.flagged || anyHasError children

def anyHasError : List Node → Bool
  | [] => false
  | n :: ns => n.hasError || anyHasError ns
end

section Search

variable (flags : Node → Bool)

mutual
/-- The first error or missing token; nodes that are not flagged are not entered. -/
def firstBad? : Node → Option Node
  | mk label children =>
    if label.kind = .error || label.missing then some (mk label children)
    else if flags (mk label children) then firstBadAmong? children
    else none

def firstBadAmong? : List Node → Option Node
  | [] => none
  | n :: ns => (firstBad? n).or (firstBadAmong? ns)
end

end Search

mutual
/-- All nodes, each before its children. -/
def preorder : Node → List Node
  | mk label children => mk label children :: preorderAll children

def preorderAll : List Node → List Node
  | [] => []
  | n :: ns => n.preorder ++ preorderAll ns
end

mutual
/-- One line per named node, indented by depth. -/
def outline (source : Source) (depth : Nat) : Node → List Text
  | mk label children =>
    let indent := List.replicate (2 * depth) (CodePoint.ofChar ' ')
    (indent ++ Text.ofString label.kind.name ++ Text.ofString " [" ++
      (source.location label.start label.stop).toText ++ Text.ofString "]") ::
      outlineAll source (depth + 1) children

def outlineAll (source : Source) (depth : Nat) : List Node → List Text
  | [] => []
  | n :: ns =>
    (if n.label.named then n.outline source depth else []) ++ outlineAll source depth ns
end

/-- Whether a node is a function that carries the given name. -/
def isFunctionNamed (source : Source) (name : String) (n : Node) : Bool :=
  n.kind.isNamedFunction && (n.child? "name").any (·.text source == name)

mutual
/-- The first function of a name; one inside it is not looked for. -/
def findFunction? (source : Source) (name : String) : Node → Option Node
  | mk label children =>
    if (mk label children).isFunctionNamed source name then some (mk label children)
    else findFunctionAmong? source name children

def findFunctionAmong? (source : Source) (name : String) : List Node → Option Node
  | [] => none
  | n :: ns => (n.findFunction? source name).or (findFunctionAmong? source name ns)
end

/-- The source text of the first function of a name. -/
def functionText? (source : Source) (name : String) (root : Node) : Option String :=
  (root.findFunction? source name).map (·.text source)

/-- What is said where no function has a name. -/
def notFound (name : String) : Text := s!"Function '{name}' not found in source"

/-- The source text of the first function of a name, or what is said where there is none. -/
def extractFunction (source : Source) (name : String) (root : Node) : Except Text String :=
  match root.functionText? source name with
  | some text => .ok text
  | none => .error (notFound name)

end Node

/-- A malformed source text, and where that shows first. -/
structure SyntaxFault where
  /-- the kind of the token that is missing there, if one is -/
  missing : Option String
  line : Int
  column : Int
  deriving DecidableEq, Repr

namespace SyntaxFault

def message (f : SyntaxFault) : Text :=
  let what := match f.missing with
    | some kind => s!"missing '{kind}'"
    | none => "unexpected token"
  s!"SyntaxError: {what} at line {f.line}:{f.column}"

/-- The fault of a tree with an error in it: its first bad node, or its root where none is bad. -/
def ofTree (flags : Node → Bool) (source : Source) (root : Node) : SyntaxFault :=
  let bad := (root.firstBad? flags).getD root
  let place := bad.location source
  ⟨if bad.label.missing then some bad.kind.name else none, place.startLine, place.startColumn⟩

end SyntaxFault

/-- Refuses a tree that is flagged as erroneous, by whatever flags its parser sets. -/
def Node.checkBy (flags : Node → Bool) (source : Source) (root : Node) : Except SyntaxFault Node :=
  if flags root then .error (.ofTree flags source root) else .ok root

/-- Refuses a tree with an error in it. -/
def Node.check (source : Source) (root : Node) : Except SyntaxFault Node :=
  root.checkBy Node.hasError source

end Stepwise
