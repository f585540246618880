import MemberAccess.Java.Terminal

/-!
# Method declarations

The shape of Java method declarations. A tree shows what was written up to layout, parentheses and
the places of type arguments in a qualified class type.
-/

namespace MemberAccess.Java

mutual

/-- A class or interface type. Its arguments are those of the last part of the name that has any. -/
inductive ClassType where
  | mk (name : Text) (arguments : List TypeArgument)

/-- An argument of a class type: a type, or a wildcard with or without a bound. -/
inductive TypeArgument where
  | type (t : TypeExpr)
  | any
  | extending (bound : TypeExpr)
  | superOf (bound : TypeExpr)

/-- A primitive or class type with a number of pairs of brackets. -/
inductive TypeExpr where
  | primitive (p : Primitive) (dimensions : Nat)
  | reference (c : ClassType) (dimensions : Nat)

end

namespace ClassType

def name : ClassType → Text
  | mk name _ => name

def arguments : ClassType → List TypeArgument
  | mk _ arguments => arguments

/-- The type with the parts between the dots of its name, each with its own arguments. -/
def ofParts (parts : List (Text × List TypeArgument)) : ClassType :=
  mk (Text.join "." (parts.map Prod.fst))
    (parts.foldl (fun found part => if part.2.isEmpty then found else part.2) [])

end ClassType

/-- What a method gives back. -/
inductive ResultType where
  | void
  | type (t : TypeExpr)

inductive Modifier where
  | keyword (k : ModifierKeyword)
  | marker (name : Text)
  deriving DecidableEq

structure TypeParameter where
  name : Text
  bounds : List ClassType

structure FormalParameter where
  modifiers : List Modifier
  type : TypeExpr
  isVariadic : Bool
  name : Text

inductive LiteralKind where
  | int | long | float | double | char | string | boolean | null
  deriving DecidableEq, Repr

/-- A literal, shown by its text. -/
structure Literal where
  kind : LiteralKind
  text : Text
  deriving DecidableEq

/-- The strengths with which binary operators bind, the weakest first. -/
inductive Precedence where
  | disjunction | conjunction | equality | relational | additive | multiplicative
  deriving DecidableEq, Repr

inductive BinaryOp where
  | or | and | equal | notEqual | less | greater | lessEqual | greaterEqual
  | add | subtract | multiply | divide | remainder
  deriving DecidableEq, Repr

inductive UnaryOp where
  | plus | minus | not
  deriving DecidableEq, Repr

mutual

inductive Expr where
  | literal (l : Literal)
  | place (p : Place)
  | this
  | classLiteral (type : ResultType)
  /-- A call without a target. -/
  | call (method : Text) (arguments : List Expr)
  | invoke (target : Expr) (method : Text) (arguments : List Expr)
  | new (type : ClassType) (arguments : List Expr)
  | assign (target : Place) (value : Expr)
  | binary (op : BinaryOp) (left right : Expr)
  | unary (op : UnaryOp) (operand : Expr)
  | cast (type : TypeExpr) (operand : Expr)
  | instanceOf (operand : Expr) (type : TypeExpr)
  | conditional (condition thenExpr elseExpr : Expr)

/-- An expression to which a value can be assigned. -/
inductive Place where
  | named (name : Text)
  | field (target : Expr) (name : Text)
  | element (array index : Expr)

end

structure Declarator where
  name : Text
  dimensions : Nat
  initializer : Option Expr

mutual

inductive Statement where
  | block (b : Block)
  | expression (e : Expr)
  | ifThen (condition : Expr) (thenBranch : Statement)
  | ifThenElse (condition : Expr) (thenBranch elseBranch : Statement)
  | while_ (condition : Expr) (body : Statement)
  | return_ (e : Option Expr)
  | throw_ (e : Expr)
  | try_ (body : Block) (catches : List CatchClause) (final : Option Block)
  | empty

inductive Block where
  | mk (statements : List BlockStatement)

/-- What can stand in a block, but not as the body of another statement, is a declaration. -/
inductive BlockStatement where
  | declaration (modifiers : List Modifier) (type : TypeExpr) (declarators : List Declarator)
  | statement (s : Statement)

inductive CatchClause where
  | mk (modifiers : List Modifier) (types : List ClassType) (name : Text) (body : Block)

end

/-- A method declaration, and the class that it was made for, if that is known. -/
structure MethodDeclaration where
  modifiers : List Modifier
  typeParameters : List TypeParameter
  result : ResultType
  name : Text
  parameters : List FormalParameter
  throws : List ClassType
  body : Option Block
  context : Option Text

namespace BlockStatement

def statement? : BlockStatement → Option Statement
  | statement s => some s
  | _ => none

end BlockStatement

namespace Modifier

def keyword? : Modifier → Option ModifierKeyword
  | keyword k => some k
  | marker _ => none

end Modifier

namespace MethodDeclaration

/-- The modifiers that are keywords, in order. -/
def keywords (m : MethodDeclaration) : List ModifierKeyword := m.modifiers.filterMap (·.keyword?)

def isStatic (m : MethodDeclaration) : Bool := m.keywords.contains .static

def isPublic (m : MethodDeclaration) : Bool := m.keywords.contains .public_

end MethodDeclaration

namespace Literal

/-- Whether the last character of `t` is the letter, in either case. -/
def endsWithLetter (lower upper : Char) (t : Text) : Bool :=
  t.getLast? = some ↑lower || t.getLast? = some ↑upper

/-- An integer literal, which is long if it ends so. -/
def ofInteger (t : Text) : Literal := ⟨if endsWithLetter 'l' 'L' t then .long else .int, t⟩

/-- A floating-point literal, which is double unless it ends otherwise. -/
def ofFloating (t : Text) : Literal := ⟨if endsWithLetter 'f' 'F' t then .float else .double, t⟩

end Literal

namespace BinaryOp

def all : List BinaryOp :=
  [or, and, equal, notEqual, less, greater, lessEqual, greaterEqual, add, subtract, multiply,
   divide, remainder]

theorem mem_all (op : BinaryOp) : op ∈ all := by cases op <;> decide

def mark : BinaryOp → Mark
  | or => .barBar
  | and => .ampersandAmpersand
  | equal => .equalEqual
  | notEqual => .bangEqual
  | less => .less
  | greater => .greater
  | lessEqual => .lessEqual
  | greaterEqual => .greaterEqual
  | add => .plus
  | subtract => .minus
  | multiply => .star
  | divide => .slash
  | remainder => .percent

def precedence : BinaryOp → Precedence
  | or => .disjunction
  | and => .conjunction
  | equal | notEqual => .equality
  | less | greater | lessEqual | greaterEqual => .relational
  | add | subtract => .additive
  | multiply | divide | remainder => .multiplicative

end BinaryOp

namespace UnaryOp

def mark : UnaryOp → Mark
  | plus => .plus
  | minus => .minus
  | not => .bang

end UnaryOp

end MemberAccess.Java
