import Stepwise.Tree
/-!
Literals read as patterns. An array or object literal, or a list in parentheses, turns out to be a
pattern only by what follows it; it is read as an expression first and converted then.
-/

namespace Stepwise

namespace Kind

def propertyIdentifier : Kind := .other "property_identifier"
def spreadElement : Kind := .other "spread_element"
def restPattern : Kind := .other "rest_pattern"
def objectPattern : Kind := .other "object_pattern"
def pairPattern : Kind := .other "pair_pattern"
def shorthandPattern : Kind := .other "shorthand_property_identifier_pattern"
/-- A property with a default, which makes sense in a pattern only. -/
def defaultedProperty : Kind := .other "object_assignment_pattern"
def formalParameters : Kind := .other "formal_parameters"
def sequenceExpression : Kind := .other "sequence_expression"

/-- What is a pattern and an expression alike. -/
def isTarget : Kind → Bool
  | identifier | undefinedLiteral | memberExpression | subscriptExpression | arrayPattern => true
  | kind => kind = objectPattern

end Kind

/-- The place of a pattern. -/
inductive PatternPlace where
  /-- where neither a default nor a rest may stand -/
  | target
  /-- in an array or a list of parameters, or behind the key of a property -/
  | element
  /-- in an object -/
  | property
  deriving DecidableEq, Repr

namespace Node

/-- The children that are no comments. -/
def solid (nodes : List Node) : List Node := nodes.filter fun n => !n.kind.isComment

def isComma (n : Node) : Bool := n.kind = .other ","

/-- Whether the first child is a pattern already. -/
def leadsWithTarget (children : List Node) : Bool := children.head?.any (·.kind.isTarget)

mutual
/-- An expression as a pattern; tokens, comments and keys stay as they are. -/
def toPattern? (place : PatternPlace) : Node → Option Node
  | mk label children =>
    let convert (kind : Kind) (inner : PatternPlace) : Option Node :=
      (toPatterns? inner children).map (mk { label with kind })
    if !label.named || label.kind.isComment || label.field = some "key" then some (mk label children)
    else match place with
      | .property =>
        if label.kind = .pair then convert .pairPattern .element
        else if label.kind = .spreadElement then convert .restPattern .target
        else if label.kind = .shorthandPropertyIdentifier then
          some (mk { label with kind := .shorthandPattern } children)
        else if label.kind = .defaultedProperty then some (mk label children)
        else none
      | place =>
        if label.kind = .array then convert .arrayPattern .element
        else if label.kind = .object then convert .objectPattern .property
        else if label.kind.isTarget then some (mk label children)
        else if place = .target then none
        else if label.kind = .spreadElement then convert .restPattern .target
        else if label.kind = .assignmentExpression && leadsWithTarget children then
          some (mk { label with kind := .assignmentPattern } children)
        else none

def toPatterns? (place : PatternPlace) : List Node → Option (List Node)
  | [] => some []
  | n :: ns => do return (← n.toPattern? place) :: (← toPatterns? place ns)
end

/-- What stands left of an equals sign, as the target of an assignment. -/
def toAssignable? (n : Node) : Option Node :=
  if n.kind = .parenthesizedExpression then some n else n.toPattern? .target

/-- What a compound assignment can change. -/
def isChangeable (n : Node) : Bool :=
  match n.kind with
  | .identifier | .memberExpression | .subscriptExpression | .parenthesizedExpression => true
  | _ => false

/-- Whether no two commas follow each other and none comes first. -/
def isWithoutGaps : List Node → Bool
  | [] => true
  | n :: ns => !n.isComma && match ns with
    | [] => true
    | comma :: ns => comma.isComma && isWithoutGaps ns

/-- A list in parentheses as the parameters of a function. -/
def toParameters? (opening items closing : List Node) : Option Node := do
  guard (isWithoutGaps (solid items))
  return .branch .formalParameters (opening ++ (← toPatterns? .element items) ++ closing)

/-- Whether a list in parentheses is an expression or several. -/
def areExpressions (items : List Node) : Bool :=
  !items.isEmpty && isWithoutGaps items && !(items.getLast?.any isComma) &&
    items.all fun n => n.kind ≠ .spreadElement

/-- A list in parentheses as an expression. -/
def toParenthesized? (opening items closing : List Node) : Option Node := do
  guard (areExpressions (solid items))
  let before := items.takeWhile (·.kind.isComment)
  let inner := items.drop before.length
  let inner := match inner with
    | [n] => [n]
    | inner => [Node.branch .sequenceExpression inner]
  return .branch .parenthesizedExpression (opening ++ before ++ inner ++ closing)

/-- Whether an object literal holds a default that no pattern has claimed. -/
def hasStrayDefault (root : Node) : Bool :=
  root.preorder.any fun n => n.kind = .object && n.children.any (·.kind = .defaultedProperty)

end Node

end Stepwise
