import MemberAccess.Java.Ast.Object
import MemberAccess.Proofs.Text.Utf16

/-!
# Method declarations from their objects

A decoder finds the tree whose object it is given. The kind of a node tells which members it has.
-/

namespace MemberAccess

namespace Json

def list? {A : Type} (decode : Json → Option A) : Json → Option (List A)
  | array items => items.mapM decode
  | _ => none

def nullable? {A : Type} (decode : Json → Option A) : Json → Option (Option A)
  | null => some none
  | v => (decode v).map some

def text? : Json → Option Text
  | string t => some t
  | _ => none

variable {A : Type} {decode : Json → Option A} {encode : A → Json}

theorem list?_ofList (h : ∀ a, decode (encode a) = some a) (items : List A) :
    list? decode (ofList encode items) = some items := by
  rw [ofList, list?]
  induction items with
  | nil => rfl
  | cons a items ih => simp [h, ih]

theorem nullable?_ofOption (h : ∀ a, decode (encode a) = some a) (hn : ∀ a, encode a ≠ null)
    (o : Option A) : nullable? decode (ofOption encode o) = some o := by
  cases o with
  | none => rfl
  | some a =>
    rw [ofOption, nullable?.eq_2 _ _ (hn a), h]
    rfl

theorem exists_decoded {v : Json} {a : A} (ho : ∃ members, v = object members)
    (h : decode v = some a) : ∃ members, v = object members ∧ decode (object members) = some a := by
  obtain ⟨members, rfl⟩ := ho
  exact ⟨members, rfl, h⟩

end Json

namespace Java

def choice? {A : Type} (text : A → Text) (choices : List A) (t : Text) : Option A :=
  choices.find? (fun a => text a = t)

def Modifier.ofJson? : Json → Option Modifier
  | .object [_, (_, .string k), (_, .null)] =>
    (choice? ModifierKeyword.text ModifierKeyword.all k).map .keyword
  | .object [_, (_, .null), (_, .object [_, (_, .string name)])] => some (.marker name)
  | _ => none

def TypeExpr.withDimensions (n : Nat) : TypeExpr → TypeExpr
  | primitive p _ => primitive p n
  | reference c _ => reference c n

mutual

def TypeArgument.ofJson? : Json → Option TypeArgument
  | .object [_, (_, .null), (_, .string _)] => some .any
  | .object [_, (_, .object type), (_, .null)] => (TypeExpr.ofJson? (.object type)).map .type
  | .object [_, (_, .object type), (_, .string wildcard)] =>
    match wildcard.toString with
    | "extends" => (TypeExpr.ofJson? (.object type)).map .extending
    | "super" => (TypeExpr.ofJson? (.object type)).map .superOf
    | _ => none
  | _ => none

def TypeExpr.ofJson? : Json → Option TypeExpr
  | .object ((_, .string kind) :: members) =>
    match kind.toString, members with
    | "PrimitiveType", [(_, .string name)] =>
      (choice? Primitive.text Primitive.all name).map (.primitive · 0)
    | "ClassType", [(_, .string name), (_, .array arguments)] =>
      (typeArguments? arguments).map fun arguments => .reference (.mk name arguments) 0
    | "ArrayType", [(_, element), (_, .number dimensions)] =>
      (TypeExpr.ofJson? element).map (·.withDimensions dimensions)
    | _, _ => none
  | _ => none

def typeArguments? : List Json → Option (List TypeArgument)
  | [] => some []
  | a :: rest => do
    let a ← TypeArgument.ofJson? a
    let rest ← typeArguments? rest
    return a :: rest

end

def ClassType.ofJson? (v : Json) : Option ClassType :=
  match TypeExpr.ofJson? v with
  | some (.reference c 0) => some c
  | _ => none

/-- `void` is written like a primitive type but is none. -/
def void? : Json → Option ResultType
  | .object [_, (_, .string name)] => if name = "void" then some .void else none
  | _ => none

def ResultType.ofJson? (v : Json) : Option ResultType := (TypeExpr.ofJson? v).map type <|> void? v

def TypeParameter.ofJson? : Json → Option TypeParameter
  | .object [_, (_, .string name), (_, bounds)] => (bounds.list? ClassType.ofJson?).map (.mk name)
  | _ => none

def FormalParameter.ofJson? : Json → Option FormalParameter
  | .object [_, (_, modifiers), (_, type), (_, .bool isVariadic), (_, .string name)] => do
    let modifiers ← modifiers.list? Modifier.ofJson?
    let type ← TypeExpr.ofJson? type
    return ⟨modifiers, type, isVariadic, name⟩
  | _ => none

def LiteralKind.all : List LiteralKind := [int, long, float, double, char, string, boolean, null]

def UnaryOp.all : List UnaryOp := [plus, minus, not]

def Expr.place? : Expr → Option Place
  | place p => some p
  | _ => none

mutual

def Expr.ofJson? : Json → Option Expr
  | .object ((_, .string kind) :: members) =>
    match kind.toString, members with
    | "Literal", [(_, .string text), (_, .string kind)] =>
      (choice? LiteralKind.text LiteralKind.all kind).map fun kind => .literal ⟨kind, text⟩
    | "ThisExpression", [] => some .this
    | "ClassLiteral", [(_, type)] => (ResultType.ofJson? type).map .classLiteral
    | "MethodInvocation", [(_, .null), (_, .string method), (_, .array arguments)] =>
      (exprs? arguments).map (.call method)
    | "MethodInvocation", [(_, .object target), (_, .string method), (_, .array arguments)] => do
      let target ← Expr.ofJson? (.object target)
      let arguments ← exprs? arguments
      return .invoke target method arguments
    | "NewInstance", [(_, type), (_, .array arguments)] => do
      let type ← ClassType.ofJson? type
      let arguments ← exprs? arguments
      return .new type arguments
    | "Assignment", [(_, target), _, (_, value)] => do
      let target ← (← Expr.ofJson? target).place?
      let value ← Expr.ofJson? value
      return .assign target value
    | "BinaryExpression", [(_, left), (_, .string operator), (_, right)] => do
      let op ← choice? (fun op => op.mark.text) BinaryOp.all operator
      let left ← Expr.ofJson? left
      let right ← Expr.ofJson? right
      return .binary op left right
    | "UnaryExpression", [(_, .string operator), (_, operand)] => do
      let op ← choice? (fun op => op.mark.text) UnaryOp.all operator
      let operand ← Expr.ofJson? operand
      return .unary op operand
    | "CastExpression", [(_, type), (_, operand)] => do
      let type ← TypeExpr.ofJson? type
      let operand ← Expr.ofJson? operand
      return .cast type operand
    | "InstanceOfExpression", [(_, operand), (_, type)] => do
      let operand ← Expr.ofJson? operand
      let type ← TypeExpr.ofJson? type
      return .instanceOf operand type
    | "ConditionalExpression", [(_, condition), (_, thenExpr), (_, elseExpr)] => do
      let condition ← Expr.ofJson? condition
      let thenExpr ← Expr.ofJson? thenExpr
      let elseExpr ← Expr.ofJson? elseExpr
      return .conditional condition thenExpr elseExpr
    | "Identifier", [(_, .string name)] => some (.place (.named name))
    | "FieldAccess", [(_, target), (_, .string name)] =>
      (Expr.ofJson? target).map fun target => .place (.field target name)
    | "ArrayAccess", [(_, array), (_, index)] => do
      let array ← Expr.ofJson? array
      let index ← Expr.ofJson? index
      return .place (.element array index)
    | _, _ => none
  | _ => none

def exprs? : List Json → Option (List Expr)
  | [] => some []
  | e :: rest => do
    let e ← Expr.ofJson? e
    let rest ← exprs? rest
    return e :: rest

end

def Declarator.ofJson? : Json → Option Declarator
  | .object [_, (_, .string name), (_, .number dimensions), (_, initializer)] =>
    (initializer.nullable? Expr.ofJson?).map (.mk name dimensions)
  | _ => none

def BlockStatement.block? : BlockStatement → Option Block
  | statement (.block b) => some b
  | _ => none

mutual

/-- A statement is decoded as what can stand in a block. -/
def BlockStatement.ofJson? : Json → Option BlockStatement
  | .object ((_, .string kind) :: members) =>
    match kind.toString, members with
    | "Block", [(_, .array statements)] =>
      (blockStatements? statements).map fun statements => .statement (.block (.mk statements))
    | "ExpressionStatement", [(_, e)] => (Expr.ofJson? e).map fun e => .statement (.expression e)
    | "IfStatement", [(_, condition), (_, thenBranch), (_, .null)] => do
      let condition ← Expr.ofJson? condition
      let thenBranch ← (← BlockStatement.ofJson? thenBranch).statement?
      return .statement (.ifThen condition thenBranch)
    | "IfStatement", [(_, condition), (_, thenBranch), (_, .object elseBranch)] => do
      let condition ← Expr.ofJson? condition
      let thenBranch ← (← BlockStatement.ofJson? thenBranch).statement?
      let elseBranch ← (← BlockStatement.ofJson? (.object elseBranch)).statement?
      return .statement (.ifThenElse condition thenBranch elseBranch)
    | "WhileStatement", [(_, condition), (_, body)] => do
      let condition ← Expr.ofJson? condition
      let body ← (← BlockStatement.ofJson? body).statement?
      return .statement (.while_ condition body)
    | "ReturnStatement", [(_, e)] =>
      (e.nullable? Expr.ofJson?).map fun e => .statement (.return_ e)
    | "ThrowStatement", [(_, e)] => (Expr.ofJson? e).map fun e => .statement (.throw_ e)
    | "TryStatement", [(_, body), (_, .array catches), (_, .null)] => do
      let body ← (← BlockStatement.ofJson? body).block?
      let catches ← catches? catches
      return .statement (.try_ body catches none)
    | "TryStatement", [(_, body), (_, .array catches), (_, .object final)] => do
      let body ← (← BlockStatement.ofJson? body).block?
      let catches ← catches? catches
      let final ← (← BlockStatement.ofJson? (.object final)).block?
      return .statement (.try_ body catches (some final))
    | "EmptyStatement", [] => some (.statement .empty)
    | "LocalVariableDeclaration", [(_, modifiers), (_, type), (_, declarators)] => do
      let modifiers ← modifiers.list? Modifier.ofJson?
      let type ← TypeExpr.ofJson? type
      let declarators ← declarators.list? Declarator.ofJson?
      return .declaration modifiers type declarators
    | _, _ => none
  | _ => none

def CatchClause.ofJson? : Json → Option CatchClause
  | .object [_, (_, modifiers), (_, types), (_, .string name), (_, body)] => do
    let modifiers ← modifiers.list? Modifier.ofJson?
    let types ← types.list? ClassType.ofJson?
    let body ← (← BlockStatement.ofJson? body).block?
    return .mk modifiers types name body
  | _ => none

def blockStatements? : List Json → Option (List BlockStatement)
  | [] => some []
  | s :: rest => do
    let s ← BlockStatement.ofJson? s
    let rest ← blockStatements? rest
    return s :: rest

def catches? : List Json → Option (List CatchClause)
  | [] => some []
  | c :: rest => do
    let c ← CatchClause.ofJson? c
    let rest ← catches? rest
    return c :: rest

end

def Block.ofJson? (v : Json) : Option Block := do (← BlockStatement.ofJson? v).block?

def MethodDeclaration.ofJson? : Json → Option MethodDeclaration
  | .object [_, (_, modifiers), (_, typeParameters), (_, result), (_, .string name),
      (_, parameters), (_, throws), (_, body), (_, context)] => do
    let modifiers ← modifiers.list? Modifier.ofJson?
    let typeParameters ← typeParameters.list? TypeParameter.ofJson?
    let result ← ResultType.ofJson? result
    let parameters ← parameters.list? FormalParameter.ofJson?
    let throws ← throws.list? ClassType.ofJson?
    let body ← body.nullable? Block.ofJson?
    let context ← context.nullable? Json.text?
    return ⟨modifiers, typeParameters, result, name, parameters, throws, body, context⟩
  | _ => none

theorem Modifier.ofJson?_toJson (m : Modifier) : ofJson? m.toJson = some m := by
  cases m with
  | keyword k => cases k <;> rfl
  | marker name => rfl

theorem choice?_primitive (p : Primitive) : choice? Primitive.text Primitive.all p.text = some p := by
  cases p <;> rfl

theorem choice?_literalKind (k : LiteralKind) :
    choice? LiteralKind.text LiteralKind.all k.text = some k := by
  cases k <;> rfl

theorem choice?_binaryOp (op : BinaryOp) :
    choice? (fun op => op.mark.text) BinaryOp.all op.mark.text = some op := by
  cases op <;> rfl

theorem choice?_unaryOp (op : UnaryOp) :
    choice? (fun op => op.mark.text) UnaryOp.all op.mark.text = some op := by
  cases op <;> rfl

theorem ofJson?_arrayObject {element : Json} {t : TypeExpr} (h : TypeExpr.ofJson? element = some t)
    (ht : t.withDimensions 0 = t) (n : Nat) :
    TypeExpr.ofJson? (arrayObject element n) = some (t.withDimensions n) := by
  cases n with
  | zero => rw [arrayObject, h, ht]
  | succ n => simp [arrayObject, node, TypeExpr.ofJson?, h]

theorem TypeExpr.exists_object (t : TypeExpr) : ∃ members, t.toJson = .object members := by
  have harray : ∀ (element : Json) (n : Nat), (∃ members, element = .object members) →
      ∃ members, arrayObject element n = .object members := by
    intro element n h
    cases n with
    | zero => exact h
    | succ n => exact ⟨_, rfl⟩
  cases t with
  | primitive p n => exact harray _ n ⟨_, rfl⟩
  | reference c n =>
    obtain ⟨name, arguments⟩ := c
    exact harray _ n ⟨_, rfl⟩

mutual

theorem ClassType.typeExpr_ofJson?_toJson : ∀ c : ClassType,
    TypeExpr.ofJson? c.toJson = some (.reference c 0)
  | .mk name arguments => by
    simp [ClassType.toJson, node, TypeExpr.ofJson?, typeArguments?_toJson arguments]

theorem TypeArgument.ofJson?_toJson : ∀ a : TypeArgument, TypeArgument.ofJson? a.toJson = some a
  | .type t => by
    obtain ⟨members, hobject, h⟩ := Json.exists_decoded t.exists_object t.ofJson?_toJson
    simp [TypeArgument.toJson, node, hobject, TypeArgument.ofJson?, h]
  | .any => by simp [TypeArgument.toJson, node, TypeArgument.ofJson?]
  | .extending t => by
    obtain ⟨members, hobject, h⟩ := Json.exists_decoded t.exists_object t.ofJson?_toJson
    simp [TypeArgument.toJson, node, hobject, TypeArgument.ofJson?, h]
  | .superOf t => by
    obtain ⟨members, hobject, h⟩ := Json.exists_decoded t.exists_object t.ofJson?_toJson
    simp [TypeArgument.toJson, node, hobject, TypeArgument.ofJson?, h]

theorem TypeExpr.ofJson?_toJson : ∀ t : TypeExpr, TypeExpr.ofJson? t.toJson = some t
  | .primitive p n => by
    have h : TypeExpr.ofJson? (primitiveObject p.text) = some (.primitive p 0) := by
      simp [primitiveObject, node, TypeExpr.ofJson?, choice?_primitive]
    exact ofJson?_arrayObject h rfl n
  | .reference c n => ofJson?_arrayObject c.typeExpr_ofJson?_toJson rfl n

theorem typeArguments?_toJson : ∀ as : List TypeArgument,
    typeArguments? (typeArgumentsJson as) = some as
  | [] => by rw [typeArgumentsJson, typeArguments?]
  | a :: rest => by
    simp [typeArgumentsJson, typeArguments?, a.ofJson?_toJson, typeArguments?_toJson rest]

end

theorem ClassType.ofJson?_toJson (c : ClassType) : ofJson? c.toJson = some c := by
  rw [ofJson?, c.typeExpr_ofJson?_toJson]
  rfl

theorem ResultType.ofJson?_toJson (r : ResultType) : ofJson? r.toJson = some r := by
  cases r with
  | void =>
    have hnone : choice? Primitive.text Primitive.all "void" = none := rfl
    simp [toJson, primitiveObject, node, ofJson?, TypeExpr.ofJson?, hnone, void?]
  | type t => simp [toJson, ofJson?, t.ofJson?_toJson]

theorem TypeParameter.ofJson?_toJson (p : TypeParameter) : ofJson? p.toJson = some p := by
  simp [toJson, node, ofJson?, Json.list?_ofList ClassType.ofJson?_toJson]

theorem FormalParameter.ofJson?_toJson (p : FormalParameter) : ofJson? p.toJson = some p := by
  simp [toJson, node, ofJson?, Json.list?_ofList Modifier.ofJson?_toJson, p.type.ofJson?_toJson]

theorem Expr.exists_object (e : Expr) : ∃ members, e.toJson = .object members := by
  cases e with
  | place p => cases p <;> exact ⟨_, rfl⟩
  | _ => exact ⟨_, rfl⟩

mutual

theorem Expr.ofJson?_toJson : ∀ e : Expr, Expr.ofJson? e.toJson = some e
  | .literal l => by simp [Expr.toJson, Literal.toJson, node, Expr.ofJson?, choice?_literalKind]
  | .place p => p.ofJson?_toJson
  | .this => by simp [Expr.toJson, node, Expr.ofJson?]
  | .classLiteral t => by simp [Expr.toJson, node, Expr.ofJson?, t.ofJson?_toJson]
  | .call _ arguments => by
    simp [Expr.toJson, node, Expr.ofJson?, exprs?_toJson arguments]
  | .invoke target _ arguments => by
    obtain ⟨members, hobject, h⟩ := Json.exists_decoded target.exists_object target.ofJson?_toJson
    simp [Expr.toJson, node, hobject, Expr.ofJson?, h, exprs?_toJson arguments]
  | .new type arguments => by
    simp [Expr.toJson, node, Expr.ofJson?, type.ofJson?_toJson, exprs?_toJson arguments]
  | .assign target value => by
    simp [Expr.toJson, node, Expr.ofJson?, Expr.place?, target.ofJson?_toJson,
      value.ofJson?_toJson]
  | .binary op left right => by
    simp [Expr.toJson, node, Expr.ofJson?, choice?_binaryOp, left.ofJson?_toJson,
      right.ofJson?_toJson]
  | .unary op operand => by
    simp [Expr.toJson, node, Expr.ofJson?, choice?_unaryOp, operand.ofJson?_toJson]
  | .cast type operand => by
    simp [Expr.toJson, node, Expr.ofJson?, type.ofJson?_toJson, operand.ofJson?_toJson]
  | .instanceOf operand type => by
    simp [Expr.toJson, node, Expr.ofJson?, type.ofJson?_toJson, operand.ofJson?_toJson]
  | .conditional condition thenExpr elseExpr => by
    simp [Expr.toJson, node, Expr.ofJson?, condition.ofJson?_toJson, thenExpr.ofJson?_toJson,
      elseExpr.ofJson?_toJson]

theorem Place.ofJson?_toJson : ∀ p : Place, Expr.ofJson? p.toJson = some (.place p)
  | .named _ => by simp [Place.toJson, node, Expr.ofJson?]
  | .field target _ => by simp [Place.toJson, node, Expr.ofJson?, target.ofJson?_toJson]
  | .element array index => by
    simp [Place.toJson, node, Expr.ofJson?, array.ofJson?_toJson, index.ofJson?_toJson]

theorem exprs?_toJson : ∀ es : List Expr, exprs? (exprsJson es) = some es
  | [] => by rw [exprsJson, exprs?]
  | e :: rest => by simp [exprsJson, exprs?, e.ofJson?_toJson, exprs?_toJson rest]

end

theorem Expr.toJson_ne_null (e : Expr) : e.toJson ≠ .null := by
  obtain ⟨members, h⟩ := e.exists_object
  rw [h]
  exact nofun

theorem Declarator.ofJson?_toJson (d : Declarator) : ofJson? d.toJson = some d := by
  simp [toJson, node, ofJson?,
    Json.nullable?_ofOption Expr.ofJson?_toJson Expr.toJson_ne_null d.initializer]

theorem Block.exists_object (b : Block) : ∃ members, b.toJson = .object members := by
  cases b with
  | mk statements => exact ⟨_, rfl⟩

theorem Statement.exists_object (s : Statement) : ∃ members, s.toJson = .object members := by
  cases s with
  | block b => exact b.exists_object
  | try_ body catches final => cases final <;> exact ⟨_, rfl⟩
  | _ => exact ⟨_, rfl⟩

mutual

theorem Statement.ofJson?_toJson : ∀ s : Statement,
    BlockStatement.ofJson? s.toJson = some (.statement s)
  | .block b => b.blockStatement_ofJson?_toJson
  | .expression e => by
    simp [Statement.toJson, node, BlockStatement.ofJson?, e.ofJson?_toJson]
  | .ifThen condition thenBranch => by
    simp [Statement.toJson, node, BlockStatement.ofJson?, BlockStatement.statement?,
      condition.ofJson?_toJson, thenBranch.ofJson?_toJson]
  | .ifThenElse condition thenBranch elseBranch => by
    obtain ⟨members, hobject, h⟩ :=
      Json.exists_decoded elseBranch.exists_object elseBranch.ofJson?_toJson
    simp [Statement.toJson, node, hobject, BlockStatement.ofJson?, BlockStatement.statement?,
      condition.ofJson?_toJson, thenBranch.ofJson?_toJson, h]
  | .while_ condition body => by
    simp [Statement.toJson, node, BlockStatement.ofJson?, BlockStatement.statement?,
      condition.ofJson?_toJson, body.ofJson?_toJson]
  | .return_ e => by
    simp [Statement.toJson, node, BlockStatement.ofJson?,
      Json.nullable?_ofOption Expr.ofJson?_toJson Expr.toJson_ne_null e]
  | .throw_ e => by
    simp [Statement.toJson, node, BlockStatement.ofJson?, e.ofJson?_toJson]
  | .try_ body catches none => by
    simp [Statement.toJson, node, BlockStatement.ofJson?, BlockStatement.block?,
      body.blockStatement_ofJson?_toJson, catches?_toJson catches]
  | .try_ body catches (some final) => by
    obtain ⟨members, hobject, h⟩ :=
      Json.exists_decoded final.exists_object final.blockStatement_ofJson?_toJson
    simp [Statement.toJson, node, hobject, BlockStatement.ofJson?, BlockStatement.block?,
      body.blockStatement_ofJson?_toJson, catches?_toJson catches, h]
  | .empty => by simp [Statement.toJson, node, BlockStatement.ofJson?]

theorem Block.blockStatement_ofJson?_toJson : ∀ b : Block,
    BlockStatement.ofJson? b.toJson = some (.statement (.block b))
  | .mk statements => by
    simp [Block.toJson, node, BlockStatement.ofJson?, blockStatements?_toJson statements]

theorem BlockStatement.ofJson?_toJson : ∀ s : BlockStatement,
    BlockStatement.ofJson? s.toJson = some s
  | .declaration modifiers type declarators => by
    simp [BlockStatement.toJson, node, BlockStatement.ofJson?, type.ofJson?_toJson,
      Json.list?_ofList Modifier.ofJson?_toJson, Json.list?_ofList Declarator.ofJson?_toJson]
  | .statement s => s.ofJson?_toJson

theorem CatchClause.ofJson?_toJson : ∀ c : CatchClause, CatchClause.ofJson? c.toJson = some c
  | .mk modifiers types _ body => by
    simp [CatchClause.toJson, node, CatchClause.ofJson?, BlockStatement.block?,
      Json.list?_ofList Modifier.ofJson?_toJson, Json.list?_ofList ClassType.ofJson?_toJson,
      body.blockStatement_ofJson?_toJson]

theorem blockStatements?_toJson : ∀ ss : List BlockStatement,
    blockStatements? (blockStatementsJson ss) = some ss
  | [] => by rw [blockStatementsJson, blockStatements?]
  | s :: rest => by
    simp [blockStatementsJson, blockStatements?, s.ofJson?_toJson, blockStatements?_toJson rest]

theorem catches?_toJson : ∀ cs : List CatchClause, catches? (catchesJson cs) = some cs
  | [] => by rw [catchesJson, catches?]
  | c :: rest => by simp [catchesJson, catches?, c.ofJson?_toJson, catches?_toJson rest]

end

theorem Block.ofJson?_toJson (b : Block) : ofJson? b.toJson = some b := by
  simp [ofJson?, b.blockStatement_ofJson?_toJson, BlockStatement.block?]

theorem Block.toJson_ne_null (b : Block) : b.toJson ≠ .null := by
  obtain ⟨members, h⟩ := b.exists_object
  rw [h]
  exact nofun

/-- The decoder finds the method whose object it is given. -/
theorem MethodDeclaration.ofJson?_toJson (m : MethodDeclaration) : ofJson? m.toJson = some m := by
  have htext : ∀ t : Text, Json.text? (.string t) = some t := fun _ => rfl
  have hnull : ∀ t : Text, Json.string t ≠ .null := fun _ => nofun
  simp [toJson, node, ofJson?, Json.list?_ofList Modifier.ofJson?_toJson,
    Json.list?_ofList TypeParameter.ofJson?_toJson, m.result.ofJson?_toJson,
    Json.list?_ofList FormalParameter.ofJson?_toJson, Json.list?_ofList ClassType.ofJson?_toJson,
    Json.nullable?_ofOption Block.ofJson?_toJson Block.toJson_ne_null,
    Json.nullable?_ofOption htext hnull]

end Java

end MemberAccess
