import MemberAccess.Java.Ast.Object
import MemberAccess.Proofs.Json.Grammar

/-!
# Method declarations by their code units

A tree in which each text is known by its UTF-16 code units has the object of the tree, with its
strings known by theirs.
-/

namespace MemberAccess

namespace Json

theorem itemsUtf16_eq (items : List Json) : itemsUtf16 items = items.map utf16 := by
  induction items with
  | nil => rfl
  | cons v rest ih => rw [itemsUtf16, ih, List.map_cons]

theorem utf16_ofList {A : Type} {encode encode' : A → Json} {f : A → A}
    (h : ∀ a, (encode a).utf16 = encode' (f a)) (items : List A) :
    (ofList encode items).utf16 = ofList encode' (items.map f) := by
  rw [ofList, utf16, itemsUtf16_eq, ofList, List.map_map, List.map_map]
  exact congrArg array (List.map_congr_left fun a _ => h a)

theorem utf16_ofOption {A : Type} {encode encode' : A → Json} {f : A → A}
    (h : ∀ a, (encode a).utf16 = encode' (f a)) (o : Option A) :
    (ofOption encode o).utf16 = ofOption encode' (o.map f) := by
  cases o with
  | none => rfl
  | some a => exact h a

end Json

namespace Java

def Modifier.utf16 : Modifier → Modifier
  | keyword k => keyword k
  | marker name => marker name.utf16

mutual

def ClassType.utf16 : ClassType → ClassType
  | .mk name arguments => .mk name.utf16 (typeArgumentsUtf16 arguments)

def TypeArgument.utf16 : TypeArgument → TypeArgument
  | .type t => .type t.utf16
  | .any => .any
  | .extending t => .extending t.utf16
  | .superOf t => .superOf t.utf16

def TypeExpr.utf16 : TypeExpr → TypeExpr
  | .primitive p dimensions => .primitive p dimensions
  | .reference c dimensions => .reference c.utf16 dimensions

def typeArgumentsUtf16 : List TypeArgument → List TypeArgument
  | [] => []
  | a :: rest => a.utf16 :: typeArgumentsUtf16 rest

end

def ResultType.utf16 : ResultType → ResultType
  | void => void
  | type t => type t.utf16

def TypeParameter.utf16 (p : TypeParameter) : TypeParameter :=
  ⟨p.name.utf16, p.bounds.map ClassType.utf16⟩

def FormalParameter.utf16 (p : FormalParameter) : FormalParameter :=
  ⟨p.modifiers.map Modifier.utf16, p.type.utf16, p.isVariadic, p.name.utf16⟩

def Literal.utf16 (l : Literal) : Literal := ⟨l.kind, l.text.utf16⟩

mutual

def Expr.utf16 : Expr → Expr
  | .literal l => .literal l.utf16
  | .place p => .place p.utf16
  | .this => .this
  | .classLiteral t => .classLiteral t.utf16
  | .call method arguments => .call method.utf16 (exprsUtf16 arguments)
  | .invoke target method arguments =>
    .invoke target.utf16 method.utf16 (exprsUtf16 arguments)
  | .new type arguments => .new type.utf16 (exprsUtf16 arguments)
  | .assign target value => .assign target.utf16 value.utf16
  | .binary op left right => .binary op left.utf16 right.utf16
  | .unary op operand => .unary op operand.utf16
  | .cast type operand => .cast type.utf16 operand.utf16
  | .instanceOf operand type => .instanceOf operand.utf16 type.utf16
  | .conditional condition thenExpr elseExpr =>
    .conditional condition.utf16 thenExpr.utf16 elseExpr.utf16

def Place.utf16 : Place → Place
  | .named name => .named name.utf16
  | .field target name => .field target.utf16 name.utf16
  | .element array index => .element array.utf16 index.utf16

def exprsUtf16 : List Expr → List Expr
  | [] => []
  | e :: rest => e.utf16 :: exprsUtf16 rest

end

def Declarator.utf16 (d : Declarator) : Declarator :=
  ⟨d.name.utf16, d.dimensions, d.initializer.map Expr.utf16⟩

mutual

def Statement.utf16 : Statement → Statement
  | .block b => .block b.utf16
  | .expression e => .expression e.utf16
  | .ifThen condition thenBranch => .ifThen condition.utf16 thenBranch.utf16
  | .ifThenElse condition thenBranch elseBranch =>
    .ifThenElse condition.utf16 thenBranch.utf16 elseBranch.utf16
  | .while_ condition body => .while_ condition.utf16 body.utf16
  | .return_ e => .return_ (e.map Expr.utf16)
  | .throw_ e => .throw_ e.utf16
  | .try_ body catches none => .try_ body.utf16 (catchesUtf16 catches) none
  | .try_ body catches (some final) => .try_ body.utf16 (catchesUtf16 catches) (some final.utf16)
  | .empty => .empty

def Block.utf16 : Block → Block
  | .mk statements => .mk (blockStatementsUtf16 statements)

def BlockStatement.utf16 : BlockStatement → BlockStatement
  | .declaration modifiers type declarators =>
    .declaration (modifiers.map Modifier.utf16) type.utf16 (declarators.map Declarator.utf16)
  | .statement s => .statement s.utf16

def CatchClause.utf16 : CatchClause → CatchClause
  | .mk modifiers types name body =>
    .mk (modifiers.map Modifier.utf16) (types.map ClassType.utf16) name.utf16 body.utf16

def blockStatementsUtf16 : List BlockStatement → List BlockStatement
  | [] => []
  | s :: rest => s.utf16 :: blockStatementsUtf16 rest

def catchesUtf16 : List CatchClause → List CatchClause
  | [] => []
  | c :: rest => c.utf16 :: catchesUtf16 rest

end

def MethodDeclaration.utf16 (m : MethodDeclaration) : MethodDeclaration where
  modifiers := m.modifiers.map Modifier.utf16
  typeParameters := m.typeParameters.map TypeParameter.utf16
  result := m.result.utf16
  name := m.name.utf16
  parameters := m.parameters.map FormalParameter.utf16
  throws := m.throws.map ClassType.utf16
  body := m.body.map Block.utf16
  context := m.context.map Text.utf16

theorem Modifier.toJson_utf16 (m : Modifier) : m.toJson.utf16 = m.utf16.toJson := by
  cases m with
  | keyword k => cases k <;> rfl
  | marker name => rfl

theorem utf16_arrayObject (element : Json) (n : Nat) :
    (arrayObject element n).utf16 = arrayObject element.utf16 n := by
  cases n <;> rfl

mutual

theorem ClassType.toJson_utf16 : ∀ c : ClassType, c.toJson.utf16 = c.utf16.toJson
  | .mk name arguments => by
    have h := typeArgumentsJson_utf16 arguments
    simp only [ClassType.toJson, ClassType.utf16, ← h]
    rfl

theorem TypeArgument.toJson_utf16 : ∀ a : TypeArgument, a.toJson.utf16 = a.utf16.toJson
  | .type t => by
    simp only [TypeArgument.toJson, TypeArgument.utf16, ← t.toJson_utf16]
    rfl
  | .any => rfl
  | .extending t => by
    simp only [TypeArgument.toJson, TypeArgument.utf16, ← t.toJson_utf16]
    rfl
  | .superOf t => by
    simp only [TypeArgument.toJson, TypeArgument.utf16, ← t.toJson_utf16]
    rfl

theorem TypeExpr.toJson_utf16 : ∀ t : TypeExpr, t.toJson.utf16 = t.utf16.toJson
  | .primitive p dimensions => by
    simp only [TypeExpr.toJson, TypeExpr.utf16, utf16_arrayObject]
    cases p <;> rfl
  | .reference c dimensions => by
    simp only [TypeExpr.toJson, TypeExpr.utf16, utf16_arrayObject, c.toJson_utf16]

theorem typeArgumentsJson_utf16 : ∀ as : List TypeArgument,
    Json.itemsUtf16 (typeArgumentsJson as) = typeArgumentsJson (typeArgumentsUtf16 as)
  | [] => rfl
  | a :: rest => by
    simp only [typeArgumentsJson, typeArgumentsUtf16, Json.itemsUtf16, a.toJson_utf16,
      typeArgumentsJson_utf16 rest]

end

theorem ResultType.toJson_utf16 (r : ResultType) : r.toJson.utf16 = r.utf16.toJson := by
  cases r with
  | void => rfl
  | type t => exact t.toJson_utf16

theorem TypeParameter.toJson_utf16 (p : TypeParameter) : p.toJson.utf16 = p.utf16.toJson := by
  have hbounds := Json.utf16_ofList ClassType.toJson_utf16 p.bounds
  simp only [TypeParameter.toJson, TypeParameter.utf16, ← hbounds]
  rfl

theorem FormalParameter.toJson_utf16 (p : FormalParameter) : p.toJson.utf16 = p.utf16.toJson := by
  have hmodifiers := Json.utf16_ofList Modifier.toJson_utf16 p.modifiers
  simp only [FormalParameter.toJson, FormalParameter.utf16, ← hmodifiers, ← p.type.toJson_utf16]
  rfl

theorem Literal.toJson_utf16 (l : Literal) : l.toJson.utf16 = l.utf16.toJson := by
  obtain ⟨kind, text⟩ := l
  cases kind <;> rfl

mutual

theorem Expr.toJson_utf16 : ∀ e : Expr, e.toJson.utf16 = e.utf16.toJson
  | .literal l => l.toJson_utf16
  | .place p => p.toJson_utf16
  | .this => rfl
  | .classLiteral t => by
    simp only [Expr.toJson, Expr.utf16, ← t.toJson_utf16]
    rfl
  | .call _ arguments => by
    simp only [Expr.toJson, Expr.utf16, ← exprsJson_utf16 arguments]
    rfl
  | .invoke target _ arguments => by
    simp only [Expr.toJson, Expr.utf16, ← target.toJson_utf16, ← exprsJson_utf16 arguments]
    rfl
  | .new type arguments => by
    simp only [Expr.toJson, Expr.utf16, ← type.toJson_utf16, ← exprsJson_utf16 arguments]
    rfl
  | .assign target value => by
    simp only [Expr.toJson, Expr.utf16, ← target.toJson_utf16, ← value.toJson_utf16]
    rfl
  | .binary op left right => by
    simp only [Expr.toJson, Expr.utf16, ← left.toJson_utf16, ← right.toJson_utf16]
    cases op <;> rfl
  | .unary op operand => by
    simp only [Expr.toJson, Expr.utf16, ← operand.toJson_utf16]
    cases op <;> rfl
  | .cast type operand => by
    simp only [Expr.toJson, Expr.utf16, ← type.toJson_utf16, ← operand.toJson_utf16]
    rfl
  | .instanceOf operand type => by
    simp only [Expr.toJson, Expr.utf16, ← operand.toJson_utf16, ← type.toJson_utf16]
    rfl
  | .conditional condition thenExpr elseExpr => by
    simp only [Expr.toJson, Expr.utf16, ← condition.toJson_utf16, ← thenExpr.toJson_utf16,
      ← elseExpr.toJson_utf16]
    rfl

theorem Place.toJson_utf16 : ∀ p : Place, p.toJson.utf16 = p.utf16.toJson
  | .named _ => rfl
  | .field target _ => by
    simp only [Place.toJson, Place.utf16, ← target.toJson_utf16]
    rfl
  | .element array index => by
    simp only [Place.toJson, Place.utf16, ← array.toJson_utf16, ← index.toJson_utf16]
    rfl

theorem exprsJson_utf16 : ∀ es : List Expr,
    Json.itemsUtf16 (exprsJson es) = exprsJson (exprsUtf16 es)
  | [] => rfl
  | e :: rest => by
    simp only [exprsJson, exprsUtf16, Json.itemsUtf16, e.toJson_utf16, exprsJson_utf16 rest]

end

theorem Declarator.toJson_utf16 (d : Declarator) : d.toJson.utf16 = d.utf16.toJson := by
  have hinitializer := Json.utf16_ofOption Expr.toJson_utf16 d.initializer
  simp only [Declarator.toJson, Declarator.utf16, ← hinitializer]
  rfl

mutual

theorem Statement.toJson_utf16 : ∀ s : Statement, s.toJson.utf16 = s.utf16.toJson
  | .block b => b.toJson_utf16
  | .expression e => by
    simp only [Statement.toJson, Statement.utf16, ← e.toJson_utf16]
    rfl
  | .ifThen condition thenBranch => by
    simp only [Statement.toJson, Statement.utf16, ← condition.toJson_utf16,
      ← thenBranch.toJson_utf16]
    rfl
  | .ifThenElse condition thenBranch elseBranch => by
    simp only [Statement.toJson, Statement.utf16, ← condition.toJson_utf16,
      ← thenBranch.toJson_utf16, ← elseBranch.toJson_utf16]
    rfl
  | .while_ condition body => by
    simp only [Statement.toJson, Statement.utf16, ← condition.toJson_utf16, ← body.toJson_utf16]
    rfl
  | .return_ e => by
    simp only [Statement.toJson, Statement.utf16, ← Json.utf16_ofOption Expr.toJson_utf16 e]
    rfl
  | .throw_ e => by
    simp only [Statement.toJson, Statement.utf16, ← e.toJson_utf16]
    rfl
  | .try_ body catches none => by
    simp only [Statement.toJson, Statement.utf16, ← body.toJson_utf16, ← catchesJson_utf16 catches]
    rfl
  | .try_ body catches (some final) => by
    simp only [Statement.toJson, Statement.utf16, ← body.toJson_utf16,
      ← catchesJson_utf16 catches, ← final.toJson_utf16]
    rfl
  | .empty => rfl

theorem Block.toJson_utf16 : ∀ b : Block, b.toJson.utf16 = b.utf16.toJson
  | .mk statements => by
    simp only [Block.toJson, Block.utf16, ← blockStatementsJson_utf16 statements]
    rfl

theorem BlockStatement.toJson_utf16 : ∀ s : BlockStatement, s.toJson.utf16 = s.utf16.toJson
  | .declaration modifiers type declarators => by
    have hmodifiers := Json.utf16_ofList Modifier.toJson_utf16 modifiers
    have hdeclarators := Json.utf16_ofList Declarator.toJson_utf16 declarators
    simp only [BlockStatement.toJson, BlockStatement.utf16, ← hmodifiers, ← hdeclarators,
      ← type.toJson_utf16]
    rfl
  | .statement s => s.toJson_utf16

theorem CatchClause.toJson_utf16 : ∀ c : CatchClause, c.toJson.utf16 = c.utf16.toJson
  | .mk modifiers types _ body => by
    have hmodifiers := Json.utf16_ofList Modifier.toJson_utf16 modifiers
    have htypes := Json.utf16_ofList ClassType.toJson_utf16 types
    simp only [CatchClause.toJson, CatchClause.utf16, ← hmodifiers, ← htypes, ← body.toJson_utf16]
    rfl

theorem blockStatementsJson_utf16 : ∀ ss : List BlockStatement,
    Json.itemsUtf16 (blockStatementsJson ss) = blockStatementsJson (blockStatementsUtf16 ss)
  | [] => rfl
  | s :: rest => by
    simp only [blockStatementsJson, blockStatementsUtf16, Json.itemsUtf16, s.toJson_utf16,
      blockStatementsJson_utf16 rest]

theorem catchesJson_utf16 : ∀ cs : List CatchClause,
    Json.itemsUtf16 (catchesJson cs) = catchesJson (catchesUtf16 cs)
  | [] => rfl
  | c :: rest => by
    simp only [catchesJson, catchesUtf16, Json.itemsUtf16, c.toJson_utf16, catchesJson_utf16 rest]

end

/-- The code units of the object of a method are the object of its code units. -/
theorem MethodDeclaration.toJson_utf16 (m : MethodDeclaration) :
    m.toJson.utf16 = m.utf16.toJson := by
  have hmodifiers := Json.utf16_ofList Modifier.toJson_utf16 m.modifiers
  have htypeParameters := Json.utf16_ofList TypeParameter.toJson_utf16 m.typeParameters
  have hparameters := Json.utf16_ofList FormalParameter.toJson_utf16 m.parameters
  have hthrows := Json.utf16_ofList ClassType.toJson_utf16 m.throws
  have hbody := Json.utf16_ofOption Block.toJson_utf16 m.body
  have hstring : ∀ t : Text, (Json.string t).utf16 = .string t.utf16 := fun _ => rfl
  have hcontext := Json.utf16_ofOption hstring m.context
  simp only [MethodDeclaration.toJson, MethodDeclaration.utf16, ← hmodifiers, ← htypeParameters,
    ← hparameters, ← hthrows, ← hbody, ← hcontext, ← m.result.toJson_utf16]
  rfl

end Java

end MemberAccess
