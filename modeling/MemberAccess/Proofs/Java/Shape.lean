import MemberAccess.Proofs.Java.Derivation
import MemberAccess.Proofs.Java.First

/-!
# What the lexemes of a nonterminal are made of

The alternatives of expressions and types, without the values. What comes after an operator that
compares is a conditional expression with what it goes on with.
-/

namespace MemberAccess.Java

namespace Nonterminal

variable {n : Nonterminal} {t u w : List Lexeme}

theorem is_after_iff {k : Terminal} : grammar.Is (after k n) w ↔
    ∃ x w', w = ⟨k, x⟩ :: w' ∧ grammar.Is n w' := by
  rw [is_iff_spans]
  simp [alternatives]

theorem is_expression_iff : grammar.Is expression w ↔
    (∃ x t, w = ⟨.identifier, x⟩ :: t ∧ grammar.Is placeTail t) ∨
    (∃ x t, w = ⟨.identifier, x⟩ :: t ∧
      ∃ a t', t = a ++ t' ∧ grammar.Is arguments a ∧ grammar.Is operandTail t') ∨
    (∃ a t, w = a ++ t ∧ grammar.Is atom a ∧ grammar.Is operandTail t) ∨
    (∃ a t, w = a ++ t ∧ grammar.Is signed a ∧ grammar.Is operatorTail t) ∨
    ∃ a t, w = a ++ t ∧ grammar.Is negationOrCast a ∧ grammar.Is operatorTail t := by
  rw [is_iff_spans]
  simp [alternatives, expressionAlternatives]

theorem is_placeTail_iff : grammar.Is placeTail w ↔
    (∃ x t, w = ⟨.mark .equal, x⟩ :: t ∧ grammar.Is expression t) ∨ grammar.Is operandTail w := by
  rw [is_iff_spans]
  simp [alternatives, placeTailAlternatives]

theorem is_operandTail_iff : grammar.Is operandTail w ↔
    (∃ d t, w = ⟨.mark .dot, d⟩ :: t ∧
      ∃ x t', t = ⟨.identifier, x⟩ :: t' ∧ grammar.Is placeTail t') ∨
    (∃ d t, w = ⟨.mark .dot, d⟩ :: t ∧ ∃ x t', t = ⟨.identifier, x⟩ :: t' ∧
      ∃ a t'', t' = a ++ t'' ∧ grammar.Is arguments a ∧ grammar.Is operandTail t'') ∨
    (∃ l t, w = ⟨.mark .leftBracket, l⟩ :: t ∧ ∃ e t', t = e ++ t' ∧ grammar.Is expression e ∧
      ∃ b t'', t' = ⟨.mark .rightBracket, b⟩ :: t'' ∧ grammar.Is placeTail t'') ∨
    grammar.Is operatorTail w := by
  rw [is_iff_spans]
  simp [alternatives, operandTailAlternatives]

theorem is_atom_iff : grammar.Is atom w ↔
    grammar.Is literal w ∨
    (∃ a t, w = a ++ t ∧ grammar.Is result a ∧ ∃ d t', t = ⟨.mark .dot, d⟩ :: t' ∧
      ∃ x, t' = [⟨.keyword .class_, x⟩]) ∨
    (∃ x, w = [⟨.keyword .this, x⟩]) ∨
    (∃ l t, w = ⟨.mark .leftParenthesis, l⟩ :: t ∧ ∃ e t', t = e ++ t' ∧
      grammar.Is expression e ∧ ∃ p, t' = [⟨.mark .rightParenthesis, p⟩]) ∨
    ∃ x t, w = ⟨.keyword .new, x⟩ :: t ∧ ∃ c a, t = c ++ a ∧ grammar.Is classType c ∧
      grammar.Is arguments a := by
  rw [is_iff_spans]
  simp [alternatives, atomAlternatives]

theorem is_result_iff : grammar.Is result w ↔
    grammar.Is type w ∨ ∃ x, w = [⟨.keyword .void, x⟩] := by
  rw [is_iff_spans]
  simp [alternatives]

theorem is_many_iff : grammar.Is (many n) w ↔
    (∃ u t, w = u ++ t ∧ grammar.Is n u ∧ grammar.Is (many n) t) ∨ w = [] := by
  rw [is_iff_spans]
  simp [alternatives]

theorem is_opt_iff : grammar.Is (opt n) w ↔ grammar.Is n w ∨ w = [] := by
  rw [is_iff_spans]
  simp [alternatives]

theorem is_chainEnd_zero : grammar.Is (chainEnd 0) w ↔ w = [] := by
  rw [is_iff_spans]
  simp [alternatives, chainEndAlternatives]

theorem is_dimensions_iff : grammar.Is dimensions w ↔
    (∃ l t, w = ⟨.mark .leftBracket, l⟩ :: t ∧
      ∃ b t', t = ⟨.mark .rightBracket, b⟩ :: t' ∧ grammar.Is dimensions t') ∨ w = [] := by
  rw [is_iff_spans]
  simp [alternatives, dimensionsAlternatives]

theorem is_typeArguments_iff : grammar.Is typeArguments w ↔
    ∃ x t, w = ⟨.mark .less, x⟩ :: t ∧ ∃ a t', t = a ++ t' ∧ grammar.Is typeArgument a ∧
      ∃ l t'', t' = l ++ t'' ∧ grammar.Is (many (next typeArgument)) l ∧
        ∃ y, t'' = [⟨.mark .greater, y⟩] := by
  rw [is_iff_spans]
  simp [alternatives, typeArgumentsAlternatives]

theorem is_classTypePart_iff : grammar.Is classTypePart w ↔
    ∃ x t, w = ⟨.identifier, x⟩ :: t ∧ grammar.Is (opt typeArguments) t := by
  rw [is_iff_spans]
  simp [alternatives, classTypePartAlternatives]

theorem is_classType_iff : grammar.Is classType w ↔
    ∃ u t, w = u ++ t ∧ grammar.Is classTypePart u ∧
      grammar.Is (many (after (.mark .dot) classTypePart)) t := by
  rw [is_iff_spans]
  simp [alternatives, classTypeAlternatives]

theorem is_type_iff : grammar.Is type w ↔
    (∃ u t, w = u ++ t ∧ grammar.Is primitive u ∧ grammar.Is dimensions t) ∨
    ∃ u t, w = u ++ t ∧ grammar.Is classType u ∧ grammar.Is dimensions t := by
  rw [is_iff_spans]
  simp [alternatives, typeAlternatives]

theorem is_typeArgument (h : grammar.Is typeArgument w) :
    grammar.Is type w ∨ ∃ x t, w = ⟨.mark .question, x⟩ :: t := by
  rw [is_iff_spans] at h
  simp only [alternatives, typeArgumentAlternatives, List.mem_cons, List.not_mem_nil, or_false,
    exists_eq_or_imp, exists_eq_left, Grammar.spans_skip, Grammar.spans_singleton] at h
  rcases h with h | ⟨x, t, rfl, -⟩ | ⟨x, t, rfl, -⟩ | ⟨x, t, rfl, -⟩
  · exact .inl h
  · exact .inr ⟨x, t, rfl⟩
  · exact .inr ⟨x, t, rfl⟩
  · exact .inr ⟨x, t, rfl⟩

theorem is_negationOrCast_iff : grammar.Is negationOrCast w ↔
    (∃ x t, w = ⟨.mark .bang, x⟩ :: t ∧ grammar.Is unary t) ∨
    (∃ l t, w = ⟨.mark .leftParenthesis, l⟩ :: t ∧ ∃ p t', t = p ++ t' ∧ grammar.Is primitive p ∧
      ∃ d t'', t' = d ++ t'' ∧ grammar.Is dimensions d ∧
        ∃ q t₁, t'' = ⟨.mark .rightParenthesis, q⟩ :: t₁ ∧ grammar.Is unary t₁) ∨
    ∃ l t, w = ⟨.mark .leftParenthesis, l⟩ :: t ∧ ∃ p t', t = p ++ t' ∧ grammar.Is classType p ∧
      ∃ d t'', t' = d ++ t'' ∧ grammar.Is dimensions d ∧
        ∃ q t₁, t'' = ⟨.mark .rightParenthesis, q⟩ :: t₁ ∧ grammar.Is unsigned t₁ := by
  rw [is_iff_spans]
  simp [alternatives, negationOrCastAlternatives]

theorem is_primary_iff : grammar.Is primary w ↔
    (∃ x t, w = ⟨.identifier, x⟩ :: t ∧ grammar.Is selections t) ∨
    (∃ x t, w = ⟨.identifier, x⟩ :: t ∧
      ∃ a t', t = a ++ t' ∧ grammar.Is arguments a ∧ grammar.Is selections t') ∨
    ∃ a t, w = a ++ t ∧ grammar.Is atom a ∧ grammar.Is selections t := by
  rw [is_iff_spans]
  simp [alternatives, primaryAlternatives]

theorem is_unary_iff : grammar.Is unary w ↔ grammar.Is signed w ∨ grammar.Is unsigned w := by
  rw [is_iff_spans]
  simp [alternatives]

theorem is_unsigned_iff : grammar.Is unsigned w ↔
    grammar.Is primary w ∨ grammar.Is negationOrCast w := by
  rw [is_iff_spans]
  simp [alternatives]

theorem is_operandTail (hu : grammar.Is selections u) (ht : grammar.Is operatorTail t) :
    grammar.Is operandTail (u ++ t) := by
  obtain ⟨k, hk⟩ := hu
  obtain ⟨k', hk'⟩ := ht
  exact ⟨_, operandTail_of_selections hk (operandTail_of_operatorTail hk')⟩

theorem is_placeTail (h : grammar.Is operandTail w) : grammar.Is placeTail w :=
  is_placeTail_iff.mpr (.inr h)

/-- A conditional expression that begins with a name goes on with selections or arguments, or it
begins with the class of a literal. -/
theorem conditional_name {x : Text} (h : grammar.Is conditional (⟨.identifier, x⟩ :: w)) :
    grammar.Is operandTail w ∨ (∃ a t, w = a ++ t ∧ grammar.Is arguments a) ∨
      ∃ a t, ⟨.identifier, x⟩ :: w = a ++ t ∧ grammar.Is atom a := by
  obtain ⟨e, h⟩ := h
  obtain ⟨u, e, t, k, he, hu, hk, -⟩ := derives_conditional.mp h
  rcases is_unary_iff.mp ⟨e, hu⟩ with hu | hu
  · exact (false_of_first hu rfl he (by decide)).elim
  · rcases is_unsigned_iff.mp hu with hu | hu
    · rcases is_primary_iff.mp hu with ⟨z, s, rfl, hs⟩ | ⟨z, _, rfl, a, s, rfl, ha, -⟩ |
        ⟨a, s, rfl, ha, -⟩
      · obtain ⟨-, rfl⟩ := List.cons.inj he
        exact .inl (is_operandTail hs ⟨k, hk⟩)
      · obtain ⟨-, rfl⟩ := List.cons.inj he
        exact .inr (.inl ⟨a, s ++ t, by simp, ha⟩)
      · exact .inr (.inr ⟨a, s ++ t, by simpa using he, ha⟩)
    · exact (false_of_first hu rfl he (by decide)).elim

theorem is_declaration_iff : grammar.Is declaration w ↔
    ∃ m t, w = m ++ t ∧ grammar.Is (many variableModifier) m ∧ ∃ v t', t = v ++ t' ∧
      grammar.Is type v ∧ ∃ d t'', t' = d ++ t'' ∧ grammar.Is declarator d ∧
        grammar.Is (many (next declarator)) t'' := by
  rw [is_iff_spans]
  simp [alternatives, declarationAlternatives]

theorem is_declarator_iff : grammar.Is declarator w ↔
    ∃ x t, w = ⟨.identifier, x⟩ :: t ∧ ∃ d t', t = d ++ t' ∧ grammar.Is dimensions d ∧
      grammar.Is (opt (after (.mark .equal) expression)) t' := by
  rw [is_iff_spans]
  simp [alternatives, declaratorAlternatives]

theorem heads_of_declarators {m r : List Lexeme} (hm : grammar.Is (many (next declarator)) m)
    (hr : Heads [.mark .semicolon] r) : Heads [.mark .comma, .mark .semicolon] (m ++ r) :=
  ((firstTable.heads_of_is hm).mono (by decide)).append fun _ => hr.mono (by decide)

theorem heads_of_value {i r : List Lexeme}
    (hi : grammar.Is (opt (after (.mark .equal) expression)) i)
    (hr : Heads [.mark .comma, .mark .semicolon] r) :
    Heads [.mark .equal, .mark .comma, .mark .semicolon] (i ++ r) :=
  ((firstTable.heads_of_is hi).mono (by decide)).append fun _ => hr.mono (by decide)

theorem heads_of_dimensions {d r : List Lexeme} (hd : grammar.Is dimensions d)
    (hr : Heads [.mark .equal, .mark .comma, .mark .semicolon] r) :
    Heads [.mark .leftBracket, .mark .equal, .mark .comma, .mark .semicolon] (d ++ r) :=
  ((firstTable.heads_of_is hd).mono (by decide)).append fun _ => hr.mono (by decide)

/-- A statement that begins like a type is an expression. -/
theorem expression_of_chain {l : Lexeme} {k : Nat} (hl : l.terminal ∈ typeFirst)
    (h : grammar.Is (chain k) (l :: t)) :
    ∃ e y t', l :: t = e ++ ⟨.mark .semicolon, y⟩ :: t' ∧ grammar.Is expression e ∧
      grammar.Is (chainEnd k) t' := by
  rw [is_iff_spans] at h
  simp only [alternatives, chainAlternatives, List.mem_cons, List.not_mem_nil, or_false,
    exists_eq_or_imp, exists_eq_left, Grammar.spans_skip, Grammar.spans_node] at h
  have hne : ∀ k : Terminal, k ∉ typeFirst → ∀ x s s', ⟨k, x⟩ :: s ≠ l :: s' := by
    rintro k hk x s s' he
    obtain ⟨rfl, -⟩ := List.cons.inj he
    exact hk hl
  rcases h with ⟨u, _, he, hu, t', _, rfl, ht, rfl⟩ | ⟨x, _, he, -⟩ | ⟨x, _, he, -⟩
  · rw [List.append_nil] at he
    rw [is_iff_spans] at hu
    simp only [alternatives, simpleStatementAlternatives, List.mem_cons, List.not_mem_nil, or_false,
      exists_eq_or_imp, exists_eq_left, Grammar.spans_skip, Grammar.spans_node,
      Grammar.spans_nil] at hu
    rcases hu with ⟨u, _, rfl, hu, rfl⟩ | ⟨x, _, rfl, -⟩ | ⟨x, _, rfl, -⟩ | ⟨x, _, rfl, -⟩ |
      ⟨e, _, rfl, hu, y, _, rfl, rfl⟩ | ⟨x, _, rfl, -⟩
    · rw [List.append_nil] at he
      have hd : ∀ k ∈ typeFirst, k ∉ block.first := by decide
      exact (false_of_first hu rfl he (hd _ hl)).elim
    · exact absurd he.symm (hne _ (by decide) _ _ _)
    · exact absurd he.symm (hne _ (by decide) _ _ _)
    · exact absurd he.symm (hne _ (by decide) _ _ _)
    · exact ⟨e, y, t', by simpa using he, hu, ht⟩
    · exact absurd he.symm (hne _ (by decide) _ _ _)
  · exact absurd he.symm (hne _ (by decide) _ _ _)
  · exact absurd he.symm (hne _ (by decide) _ _ _)

/-- What an expression can go on with after an operand, the operators of the strongest precedence
first. -/
def tails : List (Symbol Terminal Nonterminal) :=
  Precedence.strongestFirst.map (fun p => .node (operators p)) ++ [.node conditionalTail]

theorem is_operatorTail_iff : grammar.Is operatorTail w ↔ grammar.Spans tails w := by
  rw [is_iff_spans]
  simp only [alternatives, operatorTailAlternatives, List.mem_singleton, exists_eq_left]
  rfl

theorem is_joined {p : Precedence} (hu : grammar.Is (operand p) u)
    (ht : grammar.Is (operators p) t) : grammar.Is (joined p) (u ++ t) := by
  obtain ⟨e, he⟩ := hu
  obtain ⟨k, hk⟩ := ht
  exact ⟨k e, derives_joined.mpr ⟨u, e, t, k, rfl, he, hk, rfl⟩⟩

theorem is_operand_equality (h : grammar.Is (joined .relational) w) :
    grammar.Is (operand .equality) w := h.imp fun _ h => derives_operand.mpr h

theorem is_operand_conjunction (h : grammar.Is (joined .equality) w) :
    grammar.Is (operand .conjunction) w := h.imp fun _ h => derives_operand.mpr h

theorem is_operand_disjunction (h : grammar.Is (joined .conjunction) w) :
    grammar.Is (operand .disjunction) w := h.imp fun _ h => derives_operand.mpr h

theorem is_expression_of_conditional (h : grammar.Is conditional w) : grammar.Is expression w :=
  h.imp fun _ h => expression_of_conditional h

abbrev angles : List Terminal := [.mark .less, .mark .greater]

/-- What comes after an operator that compares is a conditional expression. -/
theorem conditional_of_tails {l : Lexeme} (hl : l.terminal ∈ angles)
    (h : grammar.Spans (tails.drop 2) (l :: t)) : grammar.Is conditional t := by
  obtain ⟨t₃, w₃, he, ⟨k, h₃⟩, hw⟩ := h
  rcases derives_operators.mp h₃ with ⟨op, -, x, u, e, t₃, k, rfl, hu, h₃, -⟩ |
    ⟨-, x, u, v, t₃, k, rfl, -⟩ | ⟨rfl, -⟩
  · obtain ⟨t₄, w₄, rfl, h₄, t₅, w₅, rfl, h₅, t₆, w₆, rfl, h₆, t₇, _, rfl, h₇, rfl⟩ := hw
    obtain ⟨-, rfl⟩ := List.cons.inj he
    have hj := is_joined (is_operand_equality (is_joined ⟨e, hu⟩ ⟨_, h₃⟩)) h₄
    have hj := is_joined (is_operand_disjunction (is_joined (is_operand_conjunction hj) h₅)) h₆
    rw [is_iff_spans]
    simpa [alternatives, conditionalAlternatives] using ⟨_, _, by simp, hj, h₇⟩
  · obtain ⟨rfl, -⟩ := List.cons.inj he
    simp at hl
  · have hh := firstTable.heads_of_spans hw
    rw [List.nil_append] at he
    rw [← he] at hh
    have hd : ∀ k ∈ angles, k ∉ firstTable.firsts (tails.drop 3) := by decide
    exact absurd (heads_cons.mp hh) (hd _ hl)

theorem conditional_of_operatorTail {l : Lexeme} (hl : l.terminal ∈ angles)
    (h : grammar.Is operatorTail (l :: t)) : grammar.Is conditional t := by
  obtain ⟨t₁, w₁, he₁, h₁, t₂, w₂, rfl, h₂, hw⟩ := is_operatorTail_iff.mp h
  have hd : ∀ k ∈ angles, k ∉ firstTable.first (operators .multiplicative) ∧
      k ∉ firstTable.first (operators .additive) := by decide
  cases t₁ with
  | cons l₁ t₁ =>
    obtain ⟨rfl, -⟩ := List.cons.inj he₁
    exact absurd (heads_cons.mp (firstTable.heads_of_is h₁)) (hd _ hl).1
  | nil =>
    cases t₂ with
    | cons l₂ t₂ =>
      obtain ⟨rfl, -⟩ := List.cons.inj he₁
      exact absurd (heads_cons.mp (firstTable.heads_of_is h₂)) (hd _ hl).2
    | nil =>
      rw [List.nil_append, List.nil_append] at he₁
      exact conditional_of_tails hl (he₁ ▸ hw)

theorem conditional_of_placeTail {l : Lexeme} (hl : l.terminal ∈ angles)
    (h : grammar.Is placeTail (l :: t)) : grammar.Is conditional t := by
  rcases is_placeTail_iff.mp h with ⟨x, _, he, -⟩ | h
  · obtain ⟨rfl, -⟩ := List.cons.inj he
    simp at hl
  · rcases is_operandTail_iff.mp h with ⟨x, _, he, -⟩ | ⟨x, _, he, -⟩ | ⟨x, _, he, -⟩ | h
    · obtain ⟨rfl, -⟩ := List.cons.inj he
      simp at hl
    · obtain ⟨rfl, -⟩ := List.cons.inj he
      simp at hl
    · obtain ⟨rfl, -⟩ := List.cons.inj he
      simp at hl
    · exact conditional_of_operatorTail hl h

/-- Names, each after a dot. -/
def IsNames (w : List Lexeme) : Prop := grammar.Is (many (after (.mark .dot) simpleName)) w

theorem IsNames.nil : IsNames [] := is_many_iff.mpr (.inr rfl)

theorem IsNames.cons {d x : Text} (h : IsNames w) :
    IsNames (⟨.mark .dot, d⟩ :: ⟨.identifier, x⟩ :: w) := by
  have hx : grammar.Is simpleName [⟨.identifier, x⟩] := by
    rw [is_iff_spans]
    simp [alternatives]
  exact is_many_iff.mpr (.inl ⟨[⟨.mark .dot, d⟩, ⟨.identifier, x⟩], w, rfl,
    is_after_iff.mpr ⟨d, _, rfl, hx⟩, h⟩)

theorem is_name {x : Text} (h : IsNames w) : grammar.Is name (⟨.identifier, x⟩ :: w) := by
  rw [is_iff_spans]
  exact ⟨_, .head _, x, w, rfl, w, [], by simp, h, rfl⟩

/-- What can come after the first name of a type. -/
def IsTypeTail (w : List Lexeme) : Prop :=
  grammar.Spans [.node (opt typeArguments), .node (many (after (.mark .dot) classTypePart)),
    .node dimensions] w

theorem exists_typeTail (hu : grammar.Is classType u) (ht : grammar.Is dimensions t) :
    ∃ x w, u ++ t = ⟨.identifier, x⟩ :: w ∧ IsTypeTail w := by
  obtain ⟨p, m, rfl, hp, hm⟩ := is_classType_iff.mp hu
  obtain ⟨x, a, rfl, ha⟩ := is_classTypePart_iff.mp hp
  exact ⟨x, _, by simp, a, m ++ t, rfl, ha, m, t, rfl, hm, t, [], by simp, ht, rfl⟩

theorem is_typeTail_or_primitive (h : grammar.Is type w) :
    (∃ u t, w = u ++ t ∧ grammar.Is primitive u ∧ grammar.Is dimensions t) ∨
      ∃ x t, w = ⟨.identifier, x⟩ :: t ∧ IsTypeTail t := by
  rcases is_type_iff.mp h with h | ⟨u, t, rfl, hu, ht⟩
  · exact .inl h
  · exact .inr (exists_typeTail hu ht)

/-- The name of a type goes on with another part, with arguments or with dimensions, if at all. -/
theorem IsTypeTail.cases (h : IsTypeTail w) :
    w = [] ∨
    (∃ l b t, w = ⟨.mark .leftBracket, l⟩ :: ⟨.mark .rightBracket, b⟩ :: t ∧
      grammar.Is dimensions t) ∨
    (∃ d x t, w = ⟨.mark .dot, d⟩ :: ⟨.identifier, x⟩ :: t ∧ IsTypeTail t) ∨
    ∃ x a l y t, w = ⟨.mark .less, x⟩ :: (a ++ (l ++ ⟨.mark .greater, y⟩ :: t)) ∧
      grammar.Is typeArgument a ∧ grammar.Is (many (next typeArgument)) l ∧
      Heads [.mark .dot, .mark .leftBracket] t := by
  obtain ⟨a, _, rfl, ha, m, _, rfl, hm, d, _, rfl, hd, rfl⟩ := h
  rw [List.append_nil]
  rcases is_opt_iff.mp ha with ha | rfl
  · obtain ⟨x, _, rfl, a₁, _, rfl, ha₁, l, _, rfl, hl, y, rfl⟩ := is_typeArguments_iff.mp ha
    refine .inr (.inr (.inr ⟨x, a₁, l, y, m ++ d, by simp, ha₁, hl, ?_⟩))
    have hm : grammar.Spans [.node (many (after (.mark .dot) classTypePart)), .node dimensions]
        (m ++ d) := ⟨m, d, rfl, hm, d, [], by simp, hd, rfl⟩
    exact firstTable.heads_of_spans hm
  · rcases is_many_iff.mp hm with ⟨p, m₁, rfl, hp, hm₁⟩ | rfl
    · obtain ⟨z, p₁, rfl, hp₁⟩ := is_after_iff.mp hp
      obtain ⟨x, a, rfl, ha⟩ := is_classTypePart_iff.mp hp₁
      exact .inr (.inr (.inl ⟨z, x, _, by simp, a, m₁ ++ d, rfl, ha, m₁, d, rfl, hm₁, d, [],
        by simp, hd, rfl⟩))
    · rcases is_dimensions_iff.mp hd with ⟨l, _, rfl, b, t, rfl, ht⟩ | rfl
      · exact .inr (.inl ⟨l, b, t, rfl, ht⟩)
      · exact .inl rfl

end Nonterminal

end MemberAccess.Java
