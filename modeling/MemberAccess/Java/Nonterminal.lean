import MemberAccess.Java.Chain

/-!
# The nonterminals of method declarations

What can follow an operand is a nonterminal of its own, a tail, whose value is the function from the
operand to the whole expression. A statement of a block is read as a chain of heads and simple
statements.
-/

namespace MemberAccess.Java

inductive Nonterminal where
  /-- Any number of times `n`. -/
  | many (n : Nonterminal)
  /-- Once `n` or nothing. -/
  | opt (n : Nonterminal)
  /-- The terminal and then `n`. -/
  | after (t : Terminal) (n : Nonterminal)
  /-- The terminal or nothing. -/
  | flag (t : Terminal)
  | method | modifier | marker | name | simpleName | result | throwsClause | methodBody
  | formalParameters | formalParameter | variableModifier
  | type | primitive | dimensions | classType | classTypePart | typeArguments | typeArgument
  | typeParameters | typeParameter | bounds
  | block | blockStatement | declaration | declarator
  /-- A statement with `openIfs` open heads of `if` around it, and what follows it up to the end of
  those that are given an `else`. -/
  | chain (openIfs : Nat)
  | chainEnd (openIfs : Nat)
  | simpleStatement | tryTail | catchClause | catchTypes
  | expression
  /-- What can follow an operand in an expression: selections, operators, and an assignment if the
  operand is a place. -/
  | operandTail | placeTail | operatorTail
  | conditional | conditionalTail
  /-- Operands joined by operators of the precedence. -/
  | joined (p : Precedence)
  | operators (p : Precedence)
  /-- What operators of the precedence join. -/
  | operand (p : Precedence)
  | unary | unsigned | signed | negationOrCast | primary | selections
  /-- A primary expression that does not begin with a name. -/
  | atom
  | literal | arguments
  deriving DecidableEq, Repr

namespace Nonterminal

/-- The trees and functions that nonterminals stand for. -/
@[reducible] def Value : Nonterminal → Type
  | many n => List (Value n)
  | opt n => Option (Value n)
  | after _ n => Value n
  | flag _ => Bool
  | method => MethodDeclaration
  | modifier | variableModifier => Modifier
  | marker | name | simpleName => Text
  | result => ResultType
  | throwsClause | bounds | catchTypes => List ClassType
  | methodBody => Option Block
  | formalParameters => List FormalParameter
  | formalParameter => FormalParameter
  | type => TypeExpr
  | primitive => Primitive
  | dimensions => Nat
  | classType => ClassType
  | classTypePart => Text × List TypeArgument
  | typeArguments => List TypeArgument
  | typeArgument => TypeArgument
  | typeParameters => List TypeParameter
  | typeParameter => TypeParameter
  | block => Block
  | blockStatement | declaration => BlockStatement
  | declarator => Declarator
  | chain _ | chainEnd _ => Chain
  | simpleStatement => Statement
  | tryTail => Block → Statement
  | catchClause => CatchClause
  | expression | conditional | joined _ | operand _ | unary | unsigned | signed | negationOrCast
  | primary | atom => Expr
  | operandTail | operatorTail | conditionalTail | operators _ | selections => Expr → Expr
  | placeTail => Place → Expr
  | literal => Literal
  | arguments => List Expr

end Nonterminal

end MemberAccess.Java
