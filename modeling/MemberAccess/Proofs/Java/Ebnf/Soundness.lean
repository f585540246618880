import MemberAccess.Proofs.Java.Ebnf.Soundness.Expressions
import MemberAccess.Proofs.Java.Ebnf.Soundness.Statements

/-!
# Soundness

Whatever the written grammar derives has a value of the right kind, and the grammar without left
recursion derives it too.
-/

namespace MemberAccess.Java.Ebnf

theorem Rule.isSound : (r : Rule) → r.IsSound
  | start => isSound_start
  | methodDeclaration => isSound_methodDeclaration
  | modifier => isSound_modifier
  | modifierKeyword => isSound_modifierKeyword
  | variableModifier => isSound_variableModifier
  | finalModifier => isSound_finalModifier
  | atName => isSound_atName
  | qualifiedName => isSound_qualifiedName
  | result => isSound_result
  | formalParameters => isSound_formalParameters
  | formalParameter => isSound_formalParameter
  | throwsClause => isSound_throwsClause
  | methodBody => isSound_methodBody
  | type => isSound_type
  | primitiveType => isSound_primitiveType
  | classType => isSound_classType
  | classTypePart => isSound_classTypePart
  | typeArguments => isSound_typeArguments
  | typeArgument => isSound_typeArgument
  | wildcard => isSound_wildcard
  | wildcardBound => isSound_wildcardBound
  | typeParameters => isSound_typeParameters
  | typeParameter => isSound_typeParameter
  | typeBound => isSound_typeBound
  | dims => isSound_dims
  | dim => isSound_dim
  | block => isSound_block
  | blockStatement => isSound_blockStatement
  | localVariableDeclaration => isSound_localVariableDeclaration
  | variableDeclarator => isSound_variableDeclarator
  | statement => isSound_statement
  | ifStatement => isSound_ifStatement
  | whileStatement => isSound_whileStatement
  | tryStatement => isSound_tryStatement
  | catchClause => isSound_catchClause
  | catchType => isSound_catchType
  | finallyClause => isSound_finallyClause
  | returnStatement => isSound_returnStatement
  | throwStatement => isSound_throwStatement
  | expressionStatement => isSound_expressionStatement
  | emptyStatement => isSound_emptyStatement
  | expression => isSound_expression
  | assignment => isSound_assignment
  | leftHandSide => isSound_leftHandSide
  | conditionalExpression => isSound_conditionalExpression
  | binary p => isSound_binary p
  | operator p => isSound_operator p
  | unaryExpression => isSound_unaryExpression
  | unaryExpressionNotPlusMinus => isSound_unaryExpressionNotPlusMinus
  | castExpression => isSound_castExpression
  | primary => isSound_primary
  | methodInvocation => isSound_methodInvocation
  | fieldAccess => isSound_fieldAccess
  | arrayAccess => isSound_arrayAccess
  | atom => isSound_atom
  | name => isSound_name
  | thisExpression => isSound_thisExpression
  | classLiteral => isSound_classLiteral
  | classInstanceCreation => isSound_classInstanceCreation
  | arguments => isSound_arguments
  | literal => isSound_literal

/-- Each tree of a rule has an item, which means what the rule says. -/
theorem Derives.exists_item {r : Rule} {w : List Lexeme} {t : Tree} (h : Derives r w t) :
    ∃ x, t.value = some x ∧ Means r w x :=
  h.means fun {r} _ _ _ hp hr => r.isSound hp hr

theorem Derives.is_expression {w : List Lexeme} {t : Tree} (h : Derives .expression w t) :
    grammar.Is .expression w := by
  obtain ⟨_, -, e, he, -⟩ := h.exists_item
  exact he.is

theorem Rule.Image.means {r : Rule} {w : List Lexeme} {x : Item} (h : r.Image w x) : Means r w x := by
  obtain ⟨t, ht, hx⟩ := h
  obtain ⟨x', hx', hm⟩ := ht.exists_item
  obtain rfl : x = x' := Option.some.inj (hx.symm.trans hx')
  exact hm

/-- Each tree of a method has a method for its value, and the grammar without left recursion derives
a method too, the same one if every branch of an `if` is in braces. -/
theorem Derives.exists_method {w : List Lexeme} {t : Tree} (h : Derives .start w t) :
    ∃ m m' : MethodDeclaration, t.value = some (.method m) ∧ Nonterminal.method.Derives w m' ∧
      (Braced w → m' = m) := by
  obtain ⟨_, hx, m, m', hm, rfl, he⟩ := h.exists_item
  exact ⟨m, m', hx, hm, he⟩

end MemberAccess.Java.Ebnf
