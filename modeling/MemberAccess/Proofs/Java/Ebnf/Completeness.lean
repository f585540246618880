import MemberAccess.Proofs.Java.Ebnf.Completeness.Expressions
import MemberAccess.Proofs.Java.Ebnf.Completeness.Statements
import MemberAccess.Proofs.Java.Ebnf.Completeness.Types

/-!
# Completeness

Whatever the grammar without left recursion derives, the written grammar derives with the same
value.
-/

namespace MemberAccess.Java.Ebnf

open Nonterminal in
theorem isComplete : (n : Nonterminal) → IsComplete n
  | many n => isComplete_many n
  | opt n => isComplete_opt n
  | after t n => isComplete_after t n
  | flag t => isComplete_flag t
  | method => isComplete_method
  | modifier => isComplete_modifier
  | marker => isComplete_marker
  | name => isComplete_name
  | simpleName => isComplete_simpleName
  | result => isComplete_result
  | throwsClause => isComplete_throwsClause
  | methodBody => isComplete_methodBody
  | formalParameters => isComplete_formalParameters
  | formalParameter => isComplete_formalParameter
  | variableModifier => isComplete_variableModifier
  | type => isComplete_type
  | primitive => isComplete_primitive
  | dimensions => isComplete_dimensions
  | classType => isComplete_classType
  | classTypePart => isComplete_classTypePart
  | typeArguments => isComplete_typeArguments
  | typeArgument => isComplete_typeArgument
  | typeParameters => isComplete_typeParameters
  | typeParameter => isComplete_typeParameter
  | bounds => isComplete_bounds
  | block => isComplete_block
  | blockStatement => isComplete_blockStatement
  | declaration => isComplete_declaration
  | declarator => isComplete_declarator
  | chain k => isComplete_chain k
  | chainEnd k => isComplete_chainEnd k
  | simpleStatement => isComplete_simpleStatement
  | tryTail => isComplete_tryTail
  | catchClause => isComplete_catchClause
  | catchTypes => isComplete_catchTypes
  | expression => isComplete_expression
  | operandTail => isComplete_operandTail
  | placeTail => isComplete_placeTail
  | operatorTail => isComplete_operatorTail
  | conditional => isComplete_conditional
  | conditionalTail => isComplete_conditionalTail
  | joined p => isComplete_joined p
  | operators p => isComplete_operators p
  | .operand p => isComplete_operand p
  | unary => isComplete_unary
  | unsigned => isComplete_unsigned
  | signed => isComplete_signed
  | negationOrCast => isComplete_negationOrCast
  | primary => isComplete_primary
  | selections => isComplete_selections
  | atom => isComplete_atom
  | literal => isComplete_literal
  | arguments => isComplete_arguments

/-- What a nonterminal derives can be written by the published rules. -/
theorem isWritten_of_derives {n : Nonterminal} {w : List Lexeme} {v : n.Value}
    (h : n.Derives w v) : IsWritten n w v :=
  h.induct fun {n} _ _ _ ha hr => isComplete n ha hr

/-- A method that is derived without left recursion is the value of a tree of the written
grammar. -/
theorem exists_tree_of_derives {w : List Lexeme} {m : MethodDeclaration}
    (h : Nonterminal.method.Derives w m) :
    ∃ t, Derives .start w t ∧ t.value = some (.method m) := by
  have hm : Rule.methodDeclaration.Image w (.method m) := isWritten_of_derives h
  have hr := Reading.rule hm image_nil
  rw [List.append_nil] at hr
  have hs : Rule.start.Image w (.method m) := .of_rule (.head _) rfl hr rfl
  exact hs

end MemberAccess.Java.Ebnf
