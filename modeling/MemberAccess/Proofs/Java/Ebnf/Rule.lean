import MemberAccess.Java.Grammar

/-!
# The rules of the language, as they are written down

The published grammar is in extended Backus-Naur form: rules refer to themselves on the left,
parts are optional or repeated, and some rules only choose among others. The grammar by which
texts are read has no left recursion; that both have the same language and the same trees is
shown elsewhere. Here the rules stand as published.
-/

namespace MemberAccess.Java.Ebnf

inductive Rule where
  | start | methodDeclaration
  | modifier | modifierKeyword | variableModifier | finalModifier | atName | qualifiedName
  | result | formalParameters | formalParameter | throwsClause | methodBody
  | type | primitiveType | classType | classTypePart | typeArguments | typeArgument
  | wildcard | wildcardBound | typeParameters | typeParameter | typeBound | dims | dim
  | block | blockStatement | localVariableDeclaration | variableDeclarator
  | statement | ifStatement | whileStatement | tryStatement | catchClause | catchType
  | finallyClause | returnStatement | throwStatement | expressionStatement | emptyStatement
  | expression | assignment | leftHandSide | conditionalExpression
  /-- Operands joined by binary operators of one precedence. -/
  | binary (p : Precedence)
  | operator (p : Precedence)
  | unaryExpression | unaryExpressionNotPlusMinus | castExpression
  | primary | methodInvocation | fieldAccess | arrayAccess
  | atom | name | thisExpression | classLiteral | classInstanceCreation | arguments | literal
  deriving DecidableEq, Repr

/-- A piece of the right side of a rule. Of the terminals, some only structure the text and leave
nothing in the tree. -/
inductive Part where
  | skip (t : Terminal)
  | take (t : Terminal)
  | rule (r : Rule)
  | opt (parts : List Part)
  | many (parts : List Part)

/-- What a node of a tree is called: its rule, or the name of one right side of the rule. -/
inductive Label where
  | rule (r : Rule)
  | ternary | binaryExpression | instanceofExpression | prefixExpression | notExpression
  deriving DecidableEq, Repr

/-- One right side of a rule, which may give the nodes made by it a name of its own. -/
structure Production where
  parts : List Part
  label? : Option Label := none

/-- What operators of the precedence join: the operands of the next stronger ones. -/
def operand : Precedence → Rule
  | .disjunction => .binary .conjunction
  | .conjunction => .binary .equality
  | .equality => .binary .relational
  | .relational => .binary .additive
  | .additive => .binary .multiplicative
  | .multiplicative => .unaryExpression

namespace Rule

abbrev mark (m : Mark) : Part := .skip (.mark m)

abbrev word (k : Keyword) : Part := .skip (.keyword k)

/-- One or more of the rule, with the mark between any two. -/
abbrev separated (m : Mark) (r : Rule) : List Part := [.rule r, .many [mark m, .rule r]]

def oneOf (rs : List Rule) : List Production := rs.map fun r => ⟨[.rule r], none⟩

/-- Operands of the rule `operand`, joined by operators that lean to the left. -/
def binaryProductions (p : Precedence) : List Production :=
  [⟨[.rule (operand p)], none⟩,
   ⟨[.rule (binary p), .rule (operator p), .rule (operand p)], some .binaryExpression⟩] ++
  if p = .relational then
    [⟨[.rule (binary p), word .instanceof, .rule type], some .instanceofExpression⟩]
  else []

def productions : Rule → List Production
  | start => oneOf [methodDeclaration]
  | methodDeclaration =>
    [⟨[.many [.rule modifier], .opt [.rule typeParameters], .rule result, .take .identifier,
       .rule formalParameters, .opt [.rule throwsClause], .rule methodBody], none⟩]
  | modifier => oneOf [modifierKeyword, atName]
  | modifierKeyword => ModifierKeyword.all.map fun k => ⟨[.take (.keyword (.modifier k))], none⟩
  | variableModifier => oneOf [finalModifier, atName]
  | finalModifier => [⟨[.take (.keyword (.modifier .final))], none⟩]
  | atName => [⟨[mark .at_, .rule qualifiedName], none⟩]
  | qualifiedName => [⟨[.take .identifier, .many [mark .dot, .take .identifier]], none⟩]
  | result => [⟨[.rule type], none⟩, ⟨[.take (.keyword .void)], none⟩]
  | formalParameters =>
    [⟨[mark .leftParenthesis, .opt (separated .comma formalParameter),
       mark .rightParenthesis], none⟩]
  | formalParameter =>
    [⟨[.many [.rule variableModifier], .rule type, .opt [.take (.mark .ellipsis)],
       .take .identifier], none⟩]
  | throwsClause => [⟨word .throws :: separated .comma classType, none⟩]
  | methodBody => [⟨[.rule block], none⟩, ⟨[mark .semicolon], none⟩]
  | type =>
    [⟨[.rule primitiveType, .opt [.rule dims]], none⟩, ⟨[.rule classType, .opt [.rule dims]], none⟩]
  | primitiveType => Primitive.all.map fun p => ⟨[.take (.keyword (.primitive p))], none⟩
  | classType => [⟨separated .dot classTypePart, none⟩]
  | classTypePart => [⟨[.take .identifier, .opt [.rule typeArguments]], none⟩]
  | typeArguments =>
    [⟨mark .less :: separated .comma typeArgument ++ [mark .greater], none⟩]
  | typeArgument => oneOf [type, wildcard]
  | wildcard => [⟨[mark .question, .opt [.rule wildcardBound]], none⟩]
  | wildcardBound =>
    [⟨[.take (.keyword .extends_), .rule type], none⟩, ⟨[.take (.keyword .super), .rule type], none⟩]
  | typeParameters =>
    [⟨mark .less :: separated .comma typeParameter ++ [mark .greater], none⟩]
  | typeParameter => [⟨[.take .identifier, .opt [.rule typeBound]], none⟩]
  | typeBound => [⟨word .extends_ :: separated .ampersand classType, none⟩]
  | dims => [⟨[.rule dim, .many [.rule dim]], none⟩]
  | dim => [⟨[mark .leftBracket, mark .rightBracket], none⟩]
  | block => [⟨[mark .leftBrace, .many [.rule blockStatement], mark .rightBrace], none⟩]
  | blockStatement =>
    [⟨[.rule localVariableDeclaration, mark .semicolon], none⟩, ⟨[.rule statement], none⟩]
  | localVariableDeclaration =>
    [⟨[.many [.rule variableModifier], .rule type] ++ separated .comma variableDeclarator, none⟩]
  | variableDeclarator =>
    [⟨[.take .identifier, .opt [.rule dims], .opt [mark .equal, .rule expression]], none⟩]
  | statement =>
    oneOf [block, ifStatement, whileStatement, tryStatement, returnStatement, throwStatement,
      expressionStatement, emptyStatement]
  | ifStatement =>
    [⟨[word .if_, mark .leftParenthesis, .rule expression, mark .rightParenthesis, .rule statement,
       .opt [word .else_, .rule statement]], none⟩]
  | whileStatement =>
    [⟨[word .while_, mark .leftParenthesis, .rule expression, mark .rightParenthesis,
       .rule statement], none⟩]
  | tryStatement =>
    [⟨[word .try_, .rule block, .rule catchClause, .many [.rule catchClause],
       .opt [.rule finallyClause]], none⟩,
     ⟨[word .try_, .rule block, .rule finallyClause], none⟩]
  | catchClause =>
    [⟨[word .catch_, mark .leftParenthesis, .many [.rule variableModifier], .rule catchType,
       .take .identifier, mark .rightParenthesis, .rule block], none⟩]
  | catchType => [⟨separated .bar classType, none⟩]
  | finallyClause => [⟨[word .finally_, .rule block], none⟩]
  | returnStatement => [⟨[word .return_, .opt [.rule expression], mark .semicolon], none⟩]
  | throwStatement => [⟨[word .throw_, .rule expression, mark .semicolon], none⟩]
  | expressionStatement => [⟨[.rule expression, mark .semicolon], none⟩]
  | emptyStatement => [⟨[mark .semicolon], none⟩]
  | expression => oneOf [conditionalExpression, assignment]
  | assignment => [⟨[.rule leftHandSide, mark .equal, .rule expression], none⟩]
  | leftHandSide => oneOf [name, fieldAccess, arrayAccess]
  | conditionalExpression =>
    [⟨[.rule (binary .disjunction)], none⟩,
     ⟨[.rule (binary .disjunction), mark .question, .rule expression, mark .colon,
       .rule conditionalExpression], some .ternary⟩]
  | binary p => binaryProductions p
  | operator p => p.operators.map fun op => ⟨[.take (.mark op.mark)], none⟩
  | unaryExpression =>
    [⟨[.rule (operator .additive), .rule unaryExpression], some .prefixExpression⟩,
     ⟨[.rule unaryExpressionNotPlusMinus], none⟩]
  | unaryExpressionNotPlusMinus =>
    [⟨[.rule primary], none⟩,
     ⟨[mark .bang, .rule unaryExpression], some .notExpression⟩,
     ⟨[.rule castExpression], none⟩]
  | castExpression =>
    [⟨[mark .leftParenthesis, .rule primitiveType, .opt [.rule dims], mark .rightParenthesis,
       .rule unaryExpression], none⟩,
     ⟨[mark .leftParenthesis, .rule classType, .opt [.rule dims], mark .rightParenthesis,
       .rule unaryExpressionNotPlusMinus], none⟩]
  | primary => oneOf [atom, methodInvocation, fieldAccess, arrayAccess]
  | methodInvocation =>
    [⟨[.take .identifier, .rule arguments], none⟩,
     ⟨[.rule primary, mark .dot, .take .identifier, .rule arguments], none⟩]
  | fieldAccess => [⟨[.rule primary, mark .dot, .take .identifier], none⟩]
  | arrayAccess =>
    [⟨[.rule primary, mark .leftBracket, .rule expression, mark .rightBracket], none⟩]
  | atom =>
    [⟨[.rule literal], none⟩, ⟨[.rule classLiteral], none⟩, ⟨[.rule thisExpression], none⟩,
     ⟨[mark .leftParenthesis, .rule expression, mark .rightParenthesis], none⟩,
     ⟨[.rule classInstanceCreation], none⟩, ⟨[.rule name], none⟩]
  | name => [⟨[.take .identifier], none⟩]
  | thisExpression => [⟨[word .this], none⟩]
  | classLiteral => [⟨[.rule result, mark .dot, word .class_], none⟩]
  | classInstanceCreation => [⟨[word .new, .rule classType, .rule arguments], none⟩]
  | arguments =>
    [⟨[mark .leftParenthesis, .opt (separated .comma expression), mark .rightParenthesis], none⟩]
  | literal =>
    [⟨[.take .integer], none⟩, ⟨[.take .floating], none⟩, ⟨[.take (.keyword .true_)], none⟩,
     ⟨[.take (.keyword .false_)], none⟩, ⟨[.take .character], none⟩, ⟨[.take .string], none⟩,
     ⟨[.take (.keyword .null)], none⟩]

/-- Whether a node with one child is left out and the child stands in its place. -/
def isTransparent : Rule → Bool
  | modifier | variableModifier | blockStatement | statement | expression | leftHandSide
  | conditionalExpression | binary _ | unaryExpression | unaryExpressionNotPlusMinus | primary
  | atom => true
  | _ => false

end Rule

end MemberAccess.Java.Ebnf
