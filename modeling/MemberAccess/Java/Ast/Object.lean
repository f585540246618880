import MemberAccess.Java.Ast.Basic
import MemberAccess.Json.Printer

/-!
# Method declarations as JSON objects

Each node is an object that begins with its kind under `_type`; the other members follow in a fixed
order. An absent node is `null`.
-/

namespace MemberAccess.Java

/-- The object of a node of a kind. -/
def node (kind : String) (members : List (String × Json)) : Json :=
  .object (("_type", .string kind) :: members)

def markerObject (name : Text) : Json := node "Annotation" [("name", .string name)]

def Modifier.toJson : Modifier → Json
  | keyword k => node "Modifier" [("keyword", .string k.text), ("annotation", .null)]
  | marker name => node "Modifier" [("keyword", .null), ("annotation", markerObject name)]

/-- A type with `dimensions` pairs of brackets around its element. -/
def arrayObject (element : Json) : (dimensions : Nat) → Json
  | 0 => element
  | n + 1 => node "ArrayType" [("element_type", element), ("dimensions", .number (n + 1))]

def primitiveObject (name : Text) : Json := node "PrimitiveType" [("name", .string name)]

mutual

def ClassType.toJson : ClassType → Json
  | .mk name arguments =>
    node "ClassType"
      [("name", .string name), ("type_arguments", .array (typeArgumentsJson arguments))]

def TypeArgument.toJson : TypeArgument → Json
  | .type t => node "TypeArgument" [("type", t.toJson), ("wildcard", .null)]
  | .any => node "TypeArgument" [("type", .null), ("wildcard", .string "?")]
  | .extending t => node "TypeArgument" [("type", t.toJson), ("wildcard", .string "extends")]
  | .superOf t => node "TypeArgument" [("type", t.toJson), ("wildcard", .string "super")]

def TypeExpr.toJson : TypeExpr → Json
  | .primitive p dimensions => arrayObject (primitiveObject p.text) dimensions
  | .reference c dimensions => arrayObject c.toJson dimensions

def typeArgumentsJson : List TypeArgument → List Json
  | [] => []
  | a :: rest => a.toJson :: typeArgumentsJson rest

end

def ResultType.toJson : ResultType → Json
  | void => primitiveObject "void"
  | type t => t.toJson

def TypeParameter.toJson (p : TypeParameter) : Json :=
  node "TypeParameter" [("name", .string p.name), ("bounds", .ofList ClassType.toJson p.bounds)]

def FormalParameter.toJson (p : FormalParameter) : Json :=
  node "FormalParameter"
    [("modifiers", .ofList Modifier.toJson p.modifiers), ("type", p.type.toJson),
     ("varargs", .bool p.isVariadic), ("name", .string p.name)]

def LiteralKind.text : LiteralKind → Text
  | int => "int"
  | long => "long"
  | float => "float"
  | double => "double"
  | char => "char"
  | string => "string"
  | boolean => "boolean"
  | null => "null"

def Literal.toJson (l : Literal) : Json :=
  node "Literal" [("value", .string l.text), ("kind", .string l.kind.text)]

mutual

def Expr.toJson : Expr → Json
  | .literal l => l.toJson
  | .place p => p.toJson
  | .this => node "ThisExpression" []
  | .classLiteral t => node "ClassLiteral" [("type", t.toJson)]
  | .call method arguments =>
    node "MethodInvocation"
      [("target", .null), ("method", .string method), ("arguments", .array (exprsJson arguments))]
  | .invoke target method arguments =>
    node "MethodInvocation"
      [("target", target.toJson), ("method", .string method),
       ("arguments", .array (exprsJson arguments))]
  | .new type arguments =>
    node "NewInstance" [("type", type.toJson), ("arguments", .array (exprsJson arguments))]
  | .assign target value =>
    node "Assignment"
      [("target", target.toJson), ("operator", .string "="), ("value", value.toJson)]
  | .binary op left right =>
    node "BinaryExpression"
      [("left", left.toJson), ("operator", .string op.mark.text), ("right", right.toJson)]
  | .unary op operand =>
    node "UnaryExpression" [("operator", .string op.mark.text), ("operand", operand.toJson)]
  | .cast type operand =>
    node "CastExpression" [("type", type.toJson), ("expression", operand.toJson)]
  | .instanceOf operand type =>
    node "InstanceOfExpression" [("expression", operand.toJson), ("type", type.toJson)]
  | .conditional condition thenExpr elseExpr =>
    node "ConditionalExpression"
      [("condition", condition.toJson), ("then_expr", thenExpr.toJson),
       ("else_expr", elseExpr.toJson)]

def Place.toJson : Place → Json
  | .named name => node "Identifier" [("name", .string name)]
  | .field target name =>
    node "FieldAccess" [("target", target.toJson), ("field", .string name)]
  | .element array index =>
    node "ArrayAccess" [("array", array.toJson), ("index", index.toJson)]

def exprsJson : List Expr → List Json
  | [] => []
  | e :: rest => e.toJson :: exprsJson rest

end

def Declarator.toJson (d : Declarator) : Json :=
  node "VariableDeclarator"
    [("name", .string d.name), ("dimensions", .number d.dimensions),
     ("initializer", .ofOption Expr.toJson d.initializer)]

mutual

def Statement.toJson : Statement → Json
  | .block b => b.toJson
  | .expression e => node "ExpressionStatement" [("expression", e.toJson)]
  | .ifThen condition thenBranch =>
    node "IfStatement"
      [("condition", condition.toJson), ("then_branch", thenBranch.toJson), ("else_branch", .null)]
  | .ifThenElse condition thenBranch elseBranch =>
    node "IfStatement"
      [("condition", condition.toJson), ("then_branch", thenBranch.toJson),
       ("else_branch", elseBranch.toJson)]
  | .while_ condition body =>
    node "WhileStatement" [("condition", condition.toJson), ("body", body.toJson)]
  | .return_ e => node "ReturnStatement" [("expression", .ofOption Expr.toJson e)]
  | .throw_ e => node "ThrowStatement" [("expression", e.toJson)]
  | .try_ body catches none =>
    node "TryStatement"
      [("body", body.toJson), ("catches", .array (catchesJson catches)), ("finally_block", .null)]
  | .try_ body catches (some final) =>
    node "TryStatement"
      [("body", body.toJson), ("catches", .array (catchesJson catches)),
       ("finally_block", final.toJson)]
  | .empty => node "EmptyStatement" []

def Block.toJson : Block → Json
  | .mk statements => node "Block" [("statements", .array (blockStatementsJson statements))]

def BlockStatement.toJson : BlockStatement → Json
  | .declaration modifiers type declarators =>
    node "LocalVariableDeclaration"
      [("modifiers", .ofList Modifier.toJson modifiers), ("type", type.toJson),
       ("declarators", .ofList Declarator.toJson declarators)]
  | .statement s => s.toJson

def CatchClause.toJson : CatchClause → Json
  | .mk modifiers types name body =>
    node "CatchClause"
      [("modifiers", .ofList Modifier.toJson modifiers), ("types", .ofList ClassType.toJson types),
       ("name", .string name), ("body", body.toJson)]

def blockStatementsJson : List BlockStatement → List Json
  | [] => []
  | s :: rest => s.toJson :: blockStatementsJson rest

def catchesJson : List CatchClause → List Json
  | [] => []
  | c :: rest => c.toJson :: catchesJson rest

end

def MethodDeclaration.toJson (m : MethodDeclaration) : Json :=
  node "MethodDeclaration"
    [("modifiers", .ofList Modifier.toJson m.modifiers),
     ("type_parameters", .ofList TypeParameter.toJson m.typeParameters),
     ("return_type", m.result.toJson), ("name", .string m.name),
     ("parameters", .ofList FormalParameter.toJson m.parameters),
     ("throws", .ofList ClassType.toJson m.throws), ("body", .ofOption Block.toJson m.body),
     ("context", .ofOption .string m.context)]

end MemberAccess.Java
