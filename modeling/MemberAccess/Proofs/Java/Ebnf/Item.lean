import Mathlib.Algebra.GroupWithZero.Nat
import MemberAccess.Proofs.Java.Ebnf.Tree

/-!
# What trees stand for

Bottom up, the children of a node are turned into items of many kinds: lexemes, texts, numbers,
tuples and parts of a method. The function of a label looks for the children that it wants by
their kind and place. It has no result where a part that the result needs is missing or of the
wrong kind.
-/

namespace MemberAccess.Java.Ebnf

inductive Item where
  | token (l : Lexeme)
  | text (t : Text)
  | number (n : Nat)
  | absent
  | tuple (items : List Item)
  | modifier (m : Modifier)
  | type (t : ResultType)
  | typeArgument (a : TypeArgument)
  | typeParameter (p : TypeParameter)
  | formalParameter (p : FormalParameter)
  | declarator (d : Declarator)
  | statement (s : BlockStatement)
  | catchClause (c : CatchClause)
  | expression (e : Expr)
  | method (m : MethodDeclaration)

namespace Item

def number? : Item → Option Nat
  | number n => some n
  | _ => none

def modifier? : Item → Option Modifier
  | modifier m => some m
  | _ => none

def type? : Item → Option ResultType
  | type t => some t
  | _ => none

def typeArgument? : Item → Option TypeArgument
  | typeArgument a => some a
  | _ => none

def typeParameter? : Item → Option TypeParameter
  | typeParameter p => some p
  | _ => none

def formalParameter? : Item → Option FormalParameter
  | formalParameter p => some p
  | _ => none

def declarator? : Item → Option Declarator
  | declarator d => some d
  | _ => none

def statement? : Item → Option BlockStatement
  | statement s => some s
  | _ => none

def catchClause? : Item → Option CatchClause
  | catchClause c => some c
  | _ => none

def expression? : Item → Option Expr
  | expression e => some e
  | _ => none

def block? : Item → Option Block
  | statement (.statement (.block b)) => some b
  | _ => none

def tuple? : Item → Option (List Item)
  | tuple items => some items
  | _ => none

/-- A type of something that has a value. -/
def typeExpr? : Item → Option TypeExpr
  | type (.type t) => some t
  | _ => none

def classType? : Item → Option ClassType
  | type (.type (.reference c 0)) => some c
  | _ => none

def classTypePart? : Item → Option (Text × List TypeArgument)
  | tuple [text x, tuple args] => (args.mapM typeArgument?).map (x, ·)
  | _ => none

def ofBlock (b : Block) : Item := statement (.statement (.block b))

def ofClassType (c : ClassType) : Item := type (.type (.reference c 0))

/-- The text of a lexeme. That of a keyword or a mark is known from the terminal. -/
def spelling (l : Lexeme) : Text :=
  match l.terminal with
  | .keyword k => k.text
  | .mark m => m.text
  | _ => l.text

/-- The text of a lexeme or text item. -/
def text? : Item → Option Text
  | token l => some (spelling l)
  | text t => some t
  | _ => none

def isToken (t : Terminal) : Item → Bool
  | token l => l.terminal = t
  | _ => false

def tokenText? (t : Terminal) (items : List Item) : Option Text :=
  (items.find? (isToken t)).bind text?

/-- The tuples whose first member satisfies `p`. -/
def tuplesOf (p : Item → Bool) (items : List Item) : List (List Item) :=
  (items.filterMap tuple?).filter fun xs => xs.head?.any p

/-- The type with a number of dimensions, if it is neither an array already nor nothing. -/
def arrayOf? (dimensions : Nat) : ResultType → Option TypeExpr
  | .type (.primitive p 0) => some (.primitive p dimensions)
  | .type (.reference c 0) => some (.reference c dimensions)
  | _ => none

/-- A type that a number of dimensions may follow. -/
def dimensioned? (t : ResultType) : Option Item → Option TypeExpr
  | some (number n) => arrayOf? n t
  | _ => typeExpr? (type t)

end Item

namespace Action
open Item

def methodDeclaration (items : List Item) : Option Item := do
  let typeParameters ← ((tuplesOf (·.typeParameter?.isSome) items).getLast?.getD []).mapM
    typeParameter?
  let parameters ← (((items.filterMap tuple?).filter fun xs =>
    xs.head?.all (·.formalParameter?.isSome)).getLast?.getD []).mapM formalParameter?
  let throws ← ((tuplesOf (·.type?.isSome) items).getLast?.getD []).mapM classType?
  let name := (((items.filter (isToken .identifier)).getLast?).bind text?).getD []
  return .method
    ⟨items.filterMap modifier?, typeParameters, (items.findSome? type?).getD .void, name, parameters,
     throws, (items.filterMap block?).getLast?, none⟩

def formalParameter (items : List Item) : Option Item := do
  let t ← (items.filterMap type?).getLast?
  let t ← typeExpr? (.type t)
  return .formalParameter
    ⟨items.filterMap modifier?, t, items.any (isToken (.mark .ellipsis)),
     (tokenText? .identifier items).getD []⟩

def primitiveType : List Item → Option Item
  | x :: _ => do
    let name ← x.text?
    let p ← Primitive.all.find? (·.text = name)
    return .type (.type (.primitive p 0))
  | [] => none

def classTypePart (items : List Item) : Option Item := do
  let x ← tokenText? .identifier items
  return .tuple [.text x, .tuple ((items.filterMap tuple?).getLast?.getD [])]

def typeArgument : List Item → Option Item
  | .typeArgument a :: _ => some (.typeArgument a)
  | .type (.type t) :: _ => some (.typeArgument (.type t))
  | _ => none

def wildcard : List Item → Option Item
  | [] => some (.typeArgument .any)
  | .tuple [.text kind, .type (.type bound)] :: _ =>
    if kind = Keyword.extends_.text then some (.typeArgument (.extending bound))
    else if kind = Keyword.super.text then some (.typeArgument (.superOf bound))
    else none
  | _ => none

def typeParameter (items : List Item) : Option Item := do
  let x ← tokenText? .identifier items
  let bounds ← ((items.filterMap tuple?).getLast?.getD []).mapM classType?
  return .typeParameter ⟨x, bounds⟩

def localVariableDeclaration (items : List Item) : Option Item := do
  let t ← (items.filterMap type?).getLast?
  let t ← typeExpr? (.type t)
  return .statement (.declaration (items.filterMap modifier?) t (items.filterMap declarator?))

def variableDeclarator (items : List Item) : Option Item := do
  let x ← tokenText? .identifier items
  return .declarator
    ⟨x, (items.filterMap number?).getLast?.getD 0, (items.filterMap expression?).getLast?⟩

def ifStatement : List Item → Option Item
  | [.expression c, .statement (.statement s)] =>
    some (.statement (.statement (.ifThen c s)))
  | .expression c :: .statement (.statement s) :: .statement (.statement s') :: _ =>
    some (.statement (.statement (.ifThenElse c s s')))
  | _ => none

def whileStatement : List Item → Option Item
  | .expression c :: .statement (.statement s) :: _ =>
    some (.statement (.statement (.while_ c s)))
  | _ => none

def tryStatement (items : List Item) : Option Item :=
  match items.filterMap block? with
  | body :: blocks =>
    some (.statement (.statement (.try_ body (items.filterMap catchClause?) blocks.getLast?)))
  | [] => none

def catchClause (items : List Item) : Option Item := do
  let types ← ((items.filterMap tuple?).getLast?.getD []).mapM classType?
  let x ← tokenText? .identifier items
  let body ← (items.filterMap block?).getLast?
  return .catchClause (.mk (items.filterMap modifier?) types x body)

def returnStatement : List Item → Option Item
  | [] => some (.statement (.statement (.return_ none)))
  | .expression e :: _ => some (.statement (.statement (.return_ (some e))))
  | _ => none

def binaryExpression : List Item → Option Item
  | [.expression left, .text operator, .expression right] => do
    let op ← BinaryOp.all.find? (·.mark.text = operator)
    return .expression (.binary op left right)
  | _ => none

def prefixExpression : List Item → Option Item
  | .text operator :: .expression e :: _ =>
    if operator = Mark.plus.text then some (.expression (.unary .plus e))
    else if operator = Mark.minus.text then some (.expression (.unary .minus e))
    else none
  | _ => none

def castExpression : List Item → Option Item
  | .type t :: x :: rest => do
    let t ← dimensioned? t x
    let e ← (rest.getLast?.getD x).expression?
    return .expression (.cast t e)
  | _ => none

def methodInvocation (items : List Item) : Option Item := do
  let x ← tokenText? .identifier items
  let arguments ← items.getLast?.bind tuple?
  let arguments ← arguments.mapM expression?
  match items.head? with
  | some (.expression target) => return .expression (.invoke target x arguments)
  | _ => return .expression (.call x arguments)

def literal : List Item → Option Item
  | .token ⟨t, x⟩ :: _ =>
    some (.expression (.literal (match t with
      | .integer => .ofInteger x
      | .floating => .ofFloating x
      | .keyword .true_ | .keyword .false_ => ⟨.boolean, x⟩
      | .character => ⟨.char, x⟩
      | .string => ⟨.string, x⟩
      | _ => ⟨.null, x⟩)))
  | _ => none

/-- What a node of the rule stands for. A rule that only chooses has no nodes of its own. -/
@[simp] def ofRule : Rule → List Item → Option Item
  | .start, items | .finallyClause, items => items.head?
  | .methodDeclaration, items => methodDeclaration items
  | .modifierKeyword, items | .finalModifier, items => do
    let name ← (← items.head?).text?
    let k ← ModifierKeyword.all.find? (·.text = name)
    return .modifier (.keyword k)
  | .atName, items => do
    let name ← (← items.head?).text?
    return .modifier (.marker name)
  | .qualifiedName, items => do
    let names ← items.mapM text?
    return .text (Text.join "." names)
  | .result, items => some (.type ((items.findSome? type?).getD .void))
  | .formalParameters, items => some (.tuple (items.filter (·.formalParameter?.isSome)))
  | .formalParameter, items => formalParameter items
  | .throwsClause, items | .typeBound, items | .catchType, items =>
    some (.tuple (items.filter (·.type?.isSome)))
  | .methodBody, items => some (((items.findSome? block?).map ofBlock).getD .absent)
  | .type, items => do
    let .type t ← items.head? | none
    let t ← dimensioned? t items[1]?
    return .type (.type t)
  | .primitiveType, items => primitiveType items
  | .classType, items => do
    let parts ← items.mapM classTypePart?
    return ofClassType (.ofParts parts)
  | .classTypePart, items => classTypePart items
  | .typeArguments, items => some (.tuple (items.filter (·.typeArgument?.isSome)))
  | .typeArgument, items => typeArgument items
  | .wildcard, items => wildcard items
  | .wildcardBound, items => do
    let kind ← (← items.head?).text?
    let bound ← items[1]?
    return .tuple [.text kind, bound]
  | .typeParameters, items => some (.tuple (items.filter (·.typeParameter?.isSome)))
  | .typeParameter, items => typeParameter items
  | .dims, items => do
    let ns ← items.mapM number?
    return .number ns.sum
  | .dim, _ => some (.number 1)
  | .block, items => some (ofBlock (.mk (items.filterMap statement?)))
  | .localVariableDeclaration, items => localVariableDeclaration items
  | .variableDeclarator, items => variableDeclarator items
  | .ifStatement, items => ifStatement items
  | .whileStatement, items => whileStatement items
  | .tryStatement, items => tryStatement items
  | .catchClause, items => catchClause items
  | .returnStatement, items => returnStatement items
  | .throwStatement, items => do
    let e ← (← items.head?).expression?
    return .statement (.statement (.throw_ e))
  | .expressionStatement, items => do
    let e ← (← items.head?).expression?
    return .statement (.statement (.expression e))
  | .emptyStatement, _ => some (.statement (.statement .empty))
  | .assignment, items =>
    match items with
    | .expression (.place p) :: .expression e :: _ => some (.expression (.assign p e))
    | _ => none
  | .operator _, items => do
    let t ← (← items.head?).text?
    return .text t
  | .castExpression, items => castExpression items
  | .methodInvocation, items => methodInvocation items
  | .fieldAccess, items =>
    match items with
    | .expression e :: x :: _ => x.text?.map fun x => .expression (.place (.field e x))
    | _ => none
  | .arrayAccess, items =>
    match items with
    | .expression e :: .expression i :: _ => some (.expression (.place (.element e i)))
    | _ => none
  | .name, items => do
    let x ← (← items.head?).text?
    return .expression (.place (.named x))
  | .thisExpression, _ => some (.expression .this)
  | .classLiteral, items => do
    let t ← (← items.head?).type?
    return .expression (.classLiteral t)
  | .classInstanceCreation, items =>
    match items with
    | x :: .tuple arguments :: _ => do
      let c ← x.classType?
      let es ← arguments.mapM expression?
      return .expression (.new c es)
    | _ => none
  | .arguments, items => some (.tuple items)
  | .literal, items => literal items
  | _, _ => none

end Action

/-- What a node stands for whose children stand for the items. -/
def Label.action : Label → List Item → Option Item
  | .rule r, items => Action.ofRule r items
  | .ternary, items =>
    match items with
    | .expression c :: .expression t :: .expression e :: _ =>
      some (.expression (.conditional c t e))
    | _ => none
  | .binaryExpression, items => Action.binaryExpression items
  | .instanceofExpression, items =>
    match items with
    | .expression e :: .type (.type t) :: _ => some (.expression (.instanceOf e t))
    | _ => none
  | .prefixExpression, items => Action.prefixExpression items
  | .notExpression, items =>
    match items with
    | .expression e :: _ => some (.expression (.unary .not e))
    | _ => none

mutual

/-- The item that a tree stands for. -/
def Tree.value : Tree → Option Item
  | .leaf l => some (.token l)
  | .node label children => do
    let items ← Tree.values children
    label.action items

def Tree.values : List Tree → Option (List Item)
  | [] => some []
  | t :: ts => do
    let x ← t.value
    let xs ← Tree.values ts
    return x :: xs

end

end MemberAccess.Java.Ebnf
