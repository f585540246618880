import MemberAccess.Java.Grammar
import MemberAccess.Proofs.Grammar.Productive

/-!
# Each nonterminal of method declarations derives something
-/

namespace MemberAccess.Java

namespace Nonterminal

/-- The depth of the least tree of a nonterminal. -/
def rank : Nonterminal → Nat
  | after _ n => n.rank + 1
  | name | typeArguments | typeParameter | classTypePart | type | block | declarator | chain _
  | operatorTail | atom | primary | method => 1
  | marker | classType | typeParameters | formalParameter | declaration | tryTail | operandTail
  | unsigned => 2
  | bounds | throwsClause | catchTypes | blockStatement | placeTail | unary => 3
  | catchClause | expression | signed | negationOrCast => 4
  | operand p => 4 + 2 * p.height
  | joined p => 5 + 2 * p.height
  | conditional => 16
  | _ => 0

/-- Whether an alternative has nonterminals of lesser rank only. -/
def hasLesser (n : Nonterminal) : Bool :=
  n.alternatives.any fun a => Grammar.areBelow rank n.rank a.symbols

theorem hasLesser_of_all (n : Nonterminal) : n.hasLesser := by
  cases n with
  | many n | opt n | flag t => rfl
  | after t n => simp [hasLesser, alternatives, Grammar.areBelow, rank]
  | chain k => rfl
  | chainEnd k => cases k <;> rfl
  | joined p => cases p <;> decide
  | operators p => cases p <;> decide
  | operand p => cases p <;> decide
  | _ => decide

theorem exists_is (n : Nonterminal) : ∃ w, grammar.Is n w := Grammar.exists_is hasLesser_of_all n

end Nonterminal

end MemberAccess.Java
