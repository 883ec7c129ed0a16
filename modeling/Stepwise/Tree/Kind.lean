/-!
The kinds of syntax nodes. Kinds that decide how a node is read have constructors of their own;
every other kind, tokens included, is known by its name only.
-/

namespace Stepwise

inductive Kind where
  | error
  | comment | htmlComment
  | expressionStatement | lexicalDeclaration | variableDeclaration | variableDeclarator
  | functionDeclaration | returnStatement | ifStatement | elseClause | forStatement
  | statementBlock | emptyStatement
  | identifier | number | string | templateString | trueLiteral | falseLiteral | nullLiteral
  | undefinedLiteral
  | binaryExpression | unaryExpression | updateExpression | assignmentExpression
  | ternaryExpression | parenthesizedExpression | callExpression | memberExpression
  | subscriptExpression
  | array | object | pair | computedPropertyName | shorthandPropertyIdentifier
  | arrayPattern | assignmentPattern
  | arrowFunction | functionExpression | function
  | generatorFunction | generatorFunctionDeclaration | classDeclaration | methodDefinition
  | escapeSequence | templateSubstitution
  | other (name : String)
  deriving DecidableEq, Repr

namespace Kind

def name : Kind → String
  | error => "ERROR"
  | comment => "comment"
  | htmlComment => "html_comment"
  | expressionStatement => "expression_statement"
  | lexicalDeclaration => "lexical_declaration"
  | variableDeclaration => "variable_declaration"
  | variableDeclarator => "variable_declarator"
  | functionDeclaration => "function_declaration"
  | returnStatement => "return_statement"
  | ifStatement => "if_statement"
  | elseClause => "else_clause"
  | forStatement => "for_statement"
  | statementBlock => "statement_block"
  | emptyStatement => "empty_statement"
  | identifier => "identifier"
  | number => "number"
  | string => "string"
  | templateString => "template_string"
  | trueLiteral => "true"
  | falseLiteral => "false"
  | nullLiteral => "null"
  | undefinedLiteral => "undefined"
  | binaryExpression => "binary_expression"
  | unaryExpression => "unary_expression"
  | updateExpression => "update_expression"
  | assignmentExpression => "assignment_expression"
  | ternaryExpression => "ternary_expression"
  | parenthesizedExpression => "parenthesized_expression"
  | callExpression => "call_expression"
  | memberExpression => "member_expression"
  | subscriptExpression => "subscript_expression"
  | array => "array"
  | object => "object"
  | pair => "pair"
  | computedPropertyName => "computed_property_name"
  | shorthandPropertyIdentifier => "shorthand_property_identifier"
  | arrayPattern => "array_pattern"
  | assignmentPattern => "assignment_pattern"
  | arrowFunction => "arrow_function"
  | functionExpression => "function_expression"
  | function => "function"
  | generatorFunction => "generator_function"
  | generatorFunctionDeclaration => "generator_function_declaration"
  | classDeclaration => "class_declaration"
  | methodDefinition => "method_definition"
  | escapeSequence => "escape_sequence"
  | templateSubstitution => "template_substitution"
  | other name => name

/-- The kinds with constructors of their own. -/
def known : List Kind :=
  [error, comment, htmlComment, expressionStatement, lexicalDeclaration, variableDeclaration,
   variableDeclarator, functionDeclaration, returnStatement, ifStatement, elseClause, forStatement,
   statementBlock, emptyStatement, identifier, number, string, templateString, trueLiteral,
   falseLiteral, nullLiteral, undefinedLiteral, binaryExpression, unaryExpression,
   updateExpression, assignmentExpression, ternaryExpression, parenthesizedExpression,
   callExpression, memberExpression, subscriptExpression, array, object, pair,
   computedPropertyName, shorthandPropertyIdentifier, arrayPattern, assignmentPattern,
   arrowFunction, functionExpression, function, generatorFunction, generatorFunctionDeclaration,
   classDeclaration, methodDefinition, escapeSequence, templateSubstitution]

def ofName (s : String) : Kind := (known.find? (·.name == s)).getD (other s)

def isComment : Kind → Bool
  | comment | htmlComment => true
  | _ => false

/-- Functions and classes, which keep the variables declared inside them to themselves. -/
def confinesVariables : Kind → Bool
  | functionDeclaration | functionExpression | function | arrowFunction | generatorFunction
  | generatorFunctionDeclaration | classDeclaration | methodDefinition => true
  | _ => false

/-- Functions that are found by the name they carry. -/
def isNamedFunction : Kind → Bool
  | functionDeclaration | functionExpression | function | generatorFunctionDeclaration => true
  | _ => false

end Kind

end Stepwise
