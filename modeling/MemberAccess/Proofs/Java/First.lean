import MemberAccess.Java.Grammar
import MemberAccess.Proofs.Grammar.First

/-!
# First lexemes of method text

With which terminals each nonterminal can begin. Where an alternative is chosen by the next lexemes
alone, these lists show it.
-/

namespace MemberAccess.Java

namespace Precedence

def terminals (p : Precedence) : List Terminal :=
  p.operators.map (fun op => .mark op.mark) ++
    if p = .relational then [.keyword .instanceof] else []

def strongestFirst : List Precedence :=
  [multiplicative, additive, relational, equality, conjunction, disjunction]

end Precedence

namespace Nonterminal

abbrev primitiveFirst : List Terminal := Primitive.all.map fun p => .keyword (.primitive p)

abbrev typeFirst : List Terminal := .identifier :: primitiveFirst

abbrev literalFirst : List Terminal :=
  [.integer, .floating, .keyword .true_, .keyword .false_, .character, .string, .keyword .null]

abbrev atomFirst : List Terminal :=
  literalFirst ++ typeFirst ++
    [.keyword .void, .keyword .this, .mark .leftParenthesis, .keyword .new]

/-- How an operand begins, and with it an expression. -/
abbrev operandFirst : List Terminal := atomFirst ++ [.mark .bang, .mark .plus, .mark .minus]

/-- How an expression goes on after an operand. -/
abbrev operatorFirst : List Terminal :=
  Precedence.strongestFirst.flatMap (·.terminals) ++ [.mark .question]

abbrev selectionFirst : List Terminal := [.mark .dot, .mark .leftBracket]

abbrev variableModifierFirst : List Terminal := [.keyword (.modifier .final), .mark .at_]

abbrev modifierFirst : List Terminal :=
  ModifierKeyword.all.map (fun k => .keyword (.modifier k)) ++ [.mark .at_]

abbrev simpleStatementFirst : List Terminal :=
  [.mark .leftBrace, .keyword .try_, .keyword .return_, .keyword .throw_, .mark .semicolon] ++
    operandFirst

abbrev chainFirst : List Terminal := [.keyword .if_, .keyword .while_] ++ simpleStatementFirst

def first : Nonterminal → List Terminal
  | many n | opt n => first n
  | after t _ | flag t => [t]
  | method => modifierFirst ++ [.mark .less, .keyword .void] ++ typeFirst
  | modifier => modifierFirst
  | variableModifier => variableModifierFirst
  | marker => [.mark .at_]
  | name | simpleName | classType | classTypePart | typeParameter | catchTypes | declarator =>
    [.identifier]
  | result => .keyword .void :: typeFirst
  | throwsClause => [.keyword .throws]
  | methodBody => [.mark .leftBrace, .mark .semicolon]
  | formalParameters | arguments => [.mark .leftParenthesis]
  | formalParameter | declaration => variableModifierFirst ++ typeFirst
  | type => typeFirst
  | primitive => primitiveFirst
  | dimensions => [.mark .leftBracket]
  | typeArguments | typeParameters => [.mark .less]
  | typeArgument => .mark .question :: typeFirst
  | bounds => [.keyword .extends_]
  | block => [.mark .leftBrace]
  | blockStatement => variableModifierFirst ++ chainFirst
  | chain _ => chainFirst
  | chainEnd _ => [.keyword .else_]
  | simpleStatement => simpleStatementFirst
  | tryTail => [.keyword .catch_, .keyword .finally_]
  | catchClause => [.keyword .catch_]
  | expression | conditional | joined _ | operand _ | unary => operandFirst
  | unsigned => atomFirst ++ [.mark .bang]
  | signed => [.mark .plus, .mark .minus]
  | negationOrCast => [.mark .bang, .mark .leftParenthesis]
  | primary | atom => atomFirst
  | operandTail => selectionFirst ++ operatorFirst
  | placeTail => .mark .equal :: selectionFirst ++ operatorFirst
  | operatorTail => operatorFirst
  | conditionalTail => [.mark .question]
  | operators p => p.terminals
  | selections => selectionFirst
  | literal => literalFirst

theorem firsts_subset_first (n : Nonterminal) :
    ∀ a ∈ n.alternatives, Grammar.firsts first nullable a.symbols ⊆ n.first ∧
      (a.symbols.all (·.isNullable nullable) → n.nullable) := by
  cases n with
  | many n =>
    cases h : n.nullable <;>
      simp [alternatives, Grammar.firsts, first, nullable_many, h]
  | opt n => simp [alternatives, Grammar.firsts, first, nullable_opt]
  | after t n => simp [alternatives, Grammar.firsts, first, Symbol.isNullable]
  | flag t => simp [alternatives, Grammar.firsts, first, nullable]
  | chain k =>
    simp [alternatives, chainAlternatives, Grammar.firsts, first, Symbol.isNullable, nullable]
  | chainEnd k =>
    cases k <;>
      simp [alternatives, chainEndAlternatives, Grammar.firsts, first, Symbol.isNullable, nullable]
  | operators p => cases p <;> decide +kernel
  | operand p => cases p <;> decide +kernel
  | joined p => cases p <;> decide +kernel
  | _ => decide +kernel

end Nonterminal

def firstTable : Grammar.Table grammar.toGrammar where
  first := Nonterminal.first
  nullable := Nonterminal.nullable
  firsts_subset := fun ha => (Nonterminal.firsts_subset_first _ _ ha).1
  nullable_of_mem := fun ha => (Nonterminal.firsts_subset_first _ _ ha).2

namespace Nonterminal

/-- A stream does not begin with a nonterminal that begins with other terminals. -/
theorem false_of_first {n : Nonterminal} {k : Terminal} {x : Text} {a s s' : List Lexeme}
    (ha : grammar.Is n a) (hn : n.nullable = false) (he : ⟨k, x⟩ :: s = a ++ s')
    (hk : k ∉ n.first) : False := by
  obtain ⟨l, a, rfl, hl⟩ := firstTable.exists_cons_of_is ha hn
  obtain ⟨rfl, -⟩ := List.cons.inj he
  exact hk hl

/-- Before a lexeme with which a nonterminal cannot begin, nothing at all is read as it. -/
theorem eq_nil_of_first {n : Nonterminal} {k : Terminal} {x : Text} {a s s' : List Lexeme}
    (ha : grammar.Is n a) (hk : k ∉ n.first) (he : a ++ s = ⟨k, x⟩ :: s') :
    a = [] ∧ s = ⟨k, x⟩ :: s' := by
  cases a with
  | nil => exact ⟨rfl, he⟩
  | cons l a =>
    obtain ⟨rfl, -⟩ := List.cons.inj he
    exact absurd (firstTable.heads_of_is ha) (not_heads_cons hk)

theorem false_of_firsts {n m : Nonterminal} {a b s s' : List Lexeme} (ha : grammar.Is n a)
    (hb : grammar.Is m b) (he : a ++ s = b ++ s') (hn : n.nullable = false)
    (hm : m.nullable = false) (hd : ∀ k ∈ n.first, k ∉ m.first) : False := by
  obtain ⟨l, a, rfl, hl⟩ := firstTable.exists_cons_of_is ha hn
  exact false_of_first hb hm he (hd _ hl)

end Nonterminal

end MemberAccess.Java
