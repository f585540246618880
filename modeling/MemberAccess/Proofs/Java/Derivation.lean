import MemberAccess.Java.Grammar
import MemberAccess.Proofs.Grammar.Induction

/-!
# Derivations of method text

Laws of the grammar without left recursion. Tails can be put one after the other, so operators and
selections can be added at the end of what has been read, and each kind of expression is one of the
weaker kinds.
-/

namespace MemberAccess.Java

namespace Nonterminal

/-- The lexemes derive from the nonterminal with the value. -/
def Derives (n : Nonterminal) (w : List Lexeme) (v : n.Value) : Prop := grammar.Derives n w v

variable {n : Nonterminal} {u w t : List Lexeme}

theorem derives_iff {v : n.Value} :
    n.Derives w v ↔ ∃ a ∈ n.alternatives, Grammar.ReadsBy Derives a.symbols a.build w v :=
  Grammar.derives_iff (G := grammar.toGrammar)

theorem Derives.intro {v : n.Value} {a : Alternative Terminal Value n} (ha : a ∈ n.alternatives)
    (h : Grammar.ReadsBy Derives a.symbols a.build w v) : n.Derives w v :=
  derives_iff.mpr ⟨a, ha, h⟩

theorem Derives.induct {P : (n : Nonterminal) → List Lexeme → n.Value → Prop}
    (step : ∀ {n : Nonterminal} {a : Alternative Terminal Value n} {w : List Lexeme} {v : n.Value},
      a ∈ n.alternatives → Grammar.ReadsBy P a.symbols a.build w v → P n w v)
    {v : n.Value} (h : n.Derives w v) : P n w v :=
  Grammar.Derives.induct (G := grammar.toGrammar) step h

theorem is_iff_spans : grammar.Is n w ↔ ∃ a ∈ n.alternatives, grammar.Spans a.symbols w :=
  Grammar.is_iff (G := grammar.toGrammar)

theorem Derives.is {v : n.Value} (h : n.Derives w v) : grammar.Is n w := ⟨v, h⟩

theorem derives_many_nil : (many n).Derives w [] ↔ w = [] := by
  rw [derives_iff]
  simp [alternatives]

theorem derives_many_cons {v : n.Value} {vs : List n.Value} :
    (many n).Derives w (v :: vs) ↔
      ∃ u w', w = u ++ w' ∧ n.Derives u v ∧ (many n).Derives w' vs := by
  rw [derives_iff]
  simp only [alternatives, List.mem_cons, List.not_mem_nil, or_false, exists_eq_or_imp,
    exists_eq_left, Grammar.readsBy_node, Grammar.readsBy_last, Grammar.readsBy_nil, List.cons.injEq,
    reduceCtorEq, and_false]
  constructor
  · rintro ⟨u, _, w', rfl, hu, _, hw, rfl, rfl⟩
    exact ⟨u, w', rfl, hu, hw⟩
  · rintro ⟨u, w', rfl, hu, hw⟩
    exact ⟨u, v, w', rfl, hu, vs, hw, rfl, rfl⟩

theorem Derives.nil : (many n).Derives [] [] := derives_many_nil.mpr rfl

theorem Derives.cons {v : n.Value} {vs : List n.Value} (hu : n.Derives u v)
    (hw : (many n).Derives w vs) : (many n).Derives (u ++ w) (v :: vs) :=
  derives_many_cons.mpr ⟨u, w, rfl, hu, hw⟩

theorem derives_opt_none : (opt n).Derives w none ↔ w = [] := by
  rw [derives_iff]
  simp [alternatives]

theorem derives_opt_some {v : n.Value} : (opt n).Derives w (some v) ↔ n.Derives w v := by
  rw [derives_iff]
  simp [alternatives]

theorem derives_after {t : Terminal} {v : n.Value} :
    (after t n).Derives w v ↔ ∃ x w', w = ⟨t, x⟩ :: w' ∧ n.Derives w' v := by
  rw [derives_iff]
  simp [alternatives]

theorem derives_flag {t : Terminal} {b : Bool} :
    (flag t).Derives w b ↔ (∃ x, w = [⟨t, x⟩]) ∧ b = true ∨ w = [] ∧ b = false := by
  rw [derives_iff]
  cases b <;> simp [alternatives]

theorem derives_dimensions_zero : dimensions.Derives w (0 : Nat) ↔ w = [] := by
  rw [derives_iff]
  simp [alternatives, dimensionsAlternatives]

theorem derives_dimensions_succ {k : Nat} :
    dimensions.Derives w (k + 1) ↔
      ∃ x y w', w = ⟨.mark .leftBracket, x⟩ :: ⟨.mark .rightBracket, y⟩ :: w' ∧
        dimensions.Derives w' k := by
  rw [derives_iff]
  simp only [alternatives, dimensionsAlternatives, List.mem_cons, List.not_mem_nil, or_false,
    exists_eq_or_imp, exists_eq_left, Grammar.readsBy_skip, Grammar.readsBy_last,
    Grammar.readsBy_nil, Nat.add_right_cancel_iff]
  constructor
  · rintro (⟨x, _, rfl, y, w', rfl, _, hw, rfl⟩ | ⟨-, h⟩)
    · exact ⟨x, y, w', rfl, hw⟩
    · exact absurd h (Nat.zero_ne_add_one k)
  · rintro ⟨x, y, w', rfl, hw⟩
    exact .inl ⟨x, _, rfl, y, w', rfl, k, hw, rfl⟩

/-- Selections are fields, calls and elements, one after the other. -/
theorem selections_induct {P : List Lexeme → (Expr → Expr) → Prop} (nil : P [] fun e => e)
    (field : ∀ {d x : Text} {w : List Lexeme} {k : Expr → Expr}, selections.Derives w k → P w k →
      P (⟨.mark .dot, d⟩ :: ⟨.identifier, x⟩ :: w) fun e => k (.place (.field e x)))
    (invoke : ∀ {d x : Text} {u w : List Lexeme} {args : List Expr} {k : Expr → Expr},
      arguments.Derives u args → selections.Derives w k → P w k →
      P (⟨.mark .dot, d⟩ :: ⟨.identifier, x⟩ :: (u ++ w)) fun e => k (.invoke e x args))
    (element : ∀ {l r : Text} {u w : List Lexeme} {i : Expr} {k : Expr → Expr},
      expression.Derives u i → selections.Derives w k → P w k →
      P (⟨.mark .leftBracket, l⟩ :: (u ++ ⟨.mark .rightBracket, r⟩ :: w))
        fun e => k (.place (.element e i)))
    {k : Expr → Expr} (h : selections.Derives w k) : P w k := by
  induction hn : w.length using Nat.strongRecOn generalizing w k with
  | _ m ih =>
    rw [derives_iff] at h
    simp only [alternatives, selectionsAlternatives, List.mem_cons, List.not_mem_nil, or_false,
      exists_eq_or_imp, exists_eq_left, Grammar.readsBy_skip, Grammar.readsBy_take,
      Grammar.readsBy_node, Grammar.readsBy_last, Grammar.readsBy_nil] at h
    rcases h with ⟨d, _, rfl, x, _, rfl, k, hk, rfl⟩ | ⟨d, _, rfl, x, _, rfl, u, args, w, rfl, hu,
      k, hk, rfl⟩ | ⟨l, _, rfl, u, i, _, rfl, hu, r, w, rfl, k, hk, rfl⟩ | ⟨rfl, rfl⟩
    · exact field hk (ih _ (by simp at hn; omega) hk rfl)
    · exact invoke hu hk (ih _ (by simp at hn; omega) hk rfl)
    · exact element hu hk (ih _ (by simp at hn; omega) hk rfl)
    · exact nil

theorem selections_append {k k' : Expr → Expr} (h : selections.Derives u k)
    (h' : selections.Derives w k') : selections.Derives (u ++ w) fun e => k' (k e) := by
  refine selections_induct (P := fun u k => selections.Derives (u ++ w) fun e => k' (k e))
    ?_ ?_ ?_ ?_ h
  · exact h'
  · intro d x u k _ ih
    exact .intro (.head _) (.skip (.take (.last ih rfl)))
  · intro d x v u args k hv _ ih
    rw [List.cons_append, List.cons_append, List.append_assoc]
    exact .intro (.tail _ (.head _)) (.skip (.take (.node hv (.last ih rfl))))
  · intro l r v u i k hv _ ih
    rw [List.cons_append, List.append_assoc, List.cons_append]
    exact .intro (.tail _ (.tail _ (.head _))) (.skip (.node hv (.skip (.last ih rfl))))

theorem placeTail_of_operandTail {k : Expr → Expr} (h : operandTail.Derives w k) :
    placeTail.Derives w fun p => k (.place p) :=
  .intro (.tail _ (.head _)) (.last h rfl)

theorem operandTail_of_operatorTail {k : Expr → Expr} (h : operatorTail.Derives w k) :
    operandTail.Derives w k :=
  .intro (.tail _ (.tail _ (.tail _ (.head _)))) (.last h rfl)

theorem operandTail_of_selections {k k' : Expr → Expr} (h : selections.Derives u k)
    (h' : operandTail.Derives w k') : operandTail.Derives (u ++ w) fun e => k' (k e) := by
  refine selections_induct (P := fun u k => operandTail.Derives (u ++ w) fun e => k' (k e))
    ?_ ?_ ?_ ?_ h
  · exact h'
  · intro d x u k _ ih
    exact .intro (.head _) (.skip (.take (.last (placeTail_of_operandTail ih) rfl)))
  · intro d x v u args k hv _ ih
    rw [List.cons_append, List.cons_append, List.append_assoc]
    exact .intro (.tail _ (.head _)) (.skip (.take (.node hv (.last ih rfl))))
  · intro l r v u i k hv _ ih
    rw [List.cons_append, List.append_assoc, List.cons_append]
    exact .intro (.tail _ (.tail _ (.head _)))
      (.skip (.node hv (.skip (.last (placeTail_of_operandTail ih) rfl))))

/-- Operators of a precedence come one after the other, each with its right operand. -/
theorem derives_operators {p : Precedence} {k : Expr → Expr} :
    (operators p).Derives w k ↔
      (∃ op ∈ p.operators, ∃ x u e w' k', w = ⟨.mark op.mark, x⟩ :: (u ++ w') ∧
        (operand p).Derives u e ∧ (operators p).Derives w' k' ∧
        (fun left => k' (.binary op left e)) = k) ∨
      (p = .relational ∧ ∃ x u v w' k', w = ⟨.keyword .instanceof, x⟩ :: (u ++ w') ∧
        type.Derives u v ∧ (operators p).Derives w' k' ∧ (fun e => k' (.instanceOf e v)) = k) ∨
      (w = [] ∧ (fun e => e) = k) := by
  rw [derives_iff]
  simp only [alternatives, operatorsAlternatives, List.mem_append, List.mem_map, List.mem_singleton]
  constructor
  · rintro ⟨a, (⟨op, ho, rfl⟩ | ha) | rfl, h⟩
    · simp only [operatorAlternative, Grammar.readsBy_skip, Grammar.readsBy_node,
        Grammar.readsBy_last] at h
      obtain ⟨x, _, rfl, u, e, w', rfl, hu, k', hk, rfl⟩ := h
      exact .inl ⟨op, ho, x, u, e, w', k', rfl, hu, hk, rfl⟩
    · split at ha
      · obtain rfl := List.mem_singleton.mp ha
        simp only [Grammar.readsBy_skip, Grammar.readsBy_node, Grammar.readsBy_last] at h
        obtain ⟨x, _, rfl, u, v, w', rfl, hu, k', hk, rfl⟩ := h
        exact .inr (.inl ⟨‹_›, x, u, v, w', k', rfl, hu, hk, rfl⟩)
      · cases ha
    · exact .inr (.inr h)
  · rintro (⟨op, ho, x, u, e, w', k', rfl, hu, hk, rfl⟩ | ⟨rfl, x, u, v, w', k', rfl, hu, hk, rfl⟩ |
      ⟨rfl, rfl⟩)
    · exact ⟨_, .inl (.inl ⟨op, ho, rfl⟩), .skip (.node hu (.last hk rfl))⟩
    · exact ⟨_, .inl (.inr (by rw [if_pos rfl]; exact .head _)),
        .skip (.node hu (.last hk rfl))⟩
    · exact ⟨_, .inr rfl, .nil _⟩

theorem operators_append {p : Precedence} {k k' : Expr → Expr} (h : (operators p).Derives u k)
    (h' : (operators p).Derives w k') : (operators p).Derives (u ++ w) fun e => k' (k e) := by
  induction hn : u.length using Nat.strongRecOn generalizing u k with
  | _ m ih =>
    rcases derives_operators.mp h with ⟨op, ho, x, v, e, u, k, rfl, hv, hk, rfl⟩ |
      ⟨rfl, x, v, t, u, k, rfl, hv, hk, rfl⟩ | ⟨rfl, rfl⟩
    · have := ih _ (by simp at hn; omega) hk rfl
      exact derives_operators.mpr (.inl ⟨op, ho, x, v, e, _, _, by simp, hv, this, rfl⟩)
    · have := ih _ (by simp at hn; omega) hk rfl
      exact derives_operators.mpr (.inr (.inl ⟨rfl, x, v, t, _, _, by simp, hv, this, rfl⟩))
    · exact h'

theorem derives_joined {p : Precedence} {e : Expr} :
    (joined p).Derives w e ↔
      ∃ u e₀ t k, w = u ++ t ∧ (operand p).Derives u e₀ ∧ (operators p).Derives t k ∧ k e₀ = e := by
  rw [derives_iff]
  simp only [alternatives, joinedAlternatives, List.mem_singleton, exists_eq_left,
    Grammar.readsBy_node, Grammar.readsBy_last]
  constructor
  · rintro ⟨u, e₀, t, rfl, hu, k, hk, rfl⟩
    exact ⟨u, e₀, t, k, rfl, hu, hk, rfl⟩
  · rintro ⟨u, e₀, t, k, rfl, hu, hk, rfl⟩
    exact ⟨u, e₀, t, rfl, hu, k, hk, rfl⟩

theorem derives_operand {p : Precedence} {e : Expr} :
    (operand p).Derives w e ↔
      match p with
      | .disjunction => (joined .conjunction).Derives w e
      | .conjunction => (joined .equality).Derives w e
      | .equality => (joined .relational).Derives w e
      | .relational => (joined .additive).Derives w e
      | .additive => (joined .multiplicative).Derives w e
      | .multiplicative => unary.Derives w e := by
  rw [derives_iff]
  cases p <;> simp [alternatives, operandAlternatives]

theorem derives_operatorTail {k : Expr → Expr} :
    operatorTail.Derives w k ↔
      ∃ t₁ k₁ t₂ k₂ t₃ k₃ t₄ k₄ t₅ k₅ t₆ k₆ t₇ k₇,
        w = t₁ ++ (t₂ ++ (t₃ ++ (t₄ ++ (t₅ ++ (t₆ ++ t₇))))) ∧
        (operators .multiplicative).Derives t₁ k₁ ∧ (operators .additive).Derives t₂ k₂ ∧
        (operators .relational).Derives t₃ k₃ ∧ (operators .equality).Derives t₄ k₄ ∧
        (operators .conjunction).Derives t₅ k₅ ∧ (operators .disjunction).Derives t₆ k₆ ∧
        conditionalTail.Derives t₇ k₇ ∧ (fun e => k₇ (k₆ (k₅ (k₄ (k₃ (k₂ (k₁ e))))))) = k := by
  rw [derives_iff]
  simp only [alternatives, operatorTailAlternatives, List.mem_singleton, exists_eq_left,
    Grammar.readsBy_node, Grammar.readsBy_last]
  constructor
  · rintro ⟨t₁, k₁, _, rfl, h₁, t₂, k₂, _, rfl, h₂, t₃, k₃, _, rfl, h₃, t₄, k₄, _, rfl, h₄,
      t₅, k₅, _, rfl, h₅, t₆, k₆, t₇, rfl, h₆, k₇, h₇, rfl⟩
    exact ⟨t₁, k₁, t₂, k₂, t₃, k₃, t₄, k₄, t₅, k₅, t₆, k₆, t₇, k₇, rfl, h₁, h₂, h₃, h₄, h₅, h₆,
      h₇, rfl⟩
  · rintro ⟨t₁, k₁, t₂, k₂, t₃, k₃, t₄, k₄, t₅, k₅, t₆, k₆, t₇, k₇, rfl, h₁, h₂, h₃, h₄, h₅, h₆,
      h₇, rfl⟩
    exact ⟨t₁, k₁, _, rfl, h₁, t₂, k₂, _, rfl, h₂, t₃, k₃, _, rfl, h₃, t₄, k₄, _, rfl, h₄,
      t₅, k₅, _, rfl, h₅, t₆, k₆, t₇, rfl, h₆, k₇, h₇, rfl⟩

/-- A conditional expression is a unary one with operators after it. -/
theorem derives_conditional {e : Expr} :
    conditional.Derives w e ↔
      ∃ u e₀ t k, w = u ++ t ∧ unary.Derives u e₀ ∧ operatorTail.Derives t k ∧ k e₀ = e := by
  have hc : conditional.Derives w e ↔ ∃ u e₀ t k, w = u ++ t ∧
      (joined .disjunction).Derives u e₀ ∧ conditionalTail.Derives t k ∧ k e₀ = e := by
    rw [derives_iff]
    simp only [alternatives, conditionalAlternatives, List.mem_singleton, exists_eq_left,
      Grammar.readsBy_node, Grammar.readsBy_last]
    constructor
    · rintro ⟨u, e₀, t, rfl, hu, k, hk, rfl⟩
      exact ⟨u, e₀, t, k, rfl, hu, hk, rfl⟩
    · rintro ⟨u, e₀, t, k, rfl, hu, hk, rfl⟩
      exact ⟨u, e₀, t, rfl, hu, k, hk, rfl⟩
  rw [hc]
  constructor
  · rintro ⟨_, _, t₇, k₇, rfl, g₆, h₇, rfl⟩
    obtain ⟨_, _, t₆, k₆, rfl, g₅, h₆, rfl⟩ := derives_joined.mp g₆
    obtain ⟨_, _, t₅, k₅, rfl, g₄, h₅, rfl⟩ := derives_joined.mp (derives_operand.mp g₅)
    obtain ⟨_, _, t₄, k₄, rfl, g₃, h₄, rfl⟩ := derives_joined.mp (derives_operand.mp g₄)
    obtain ⟨_, _, t₃, k₃, rfl, g₂, h₃, rfl⟩ := derives_joined.mp (derives_operand.mp g₃)
    obtain ⟨_, _, t₂, k₂, rfl, g₁, h₂, rfl⟩ := derives_joined.mp (derives_operand.mp g₂)
    obtain ⟨u, e, t₁, k₁, rfl, g, h₁, rfl⟩ := derives_joined.mp (derives_operand.mp g₁)
    refine ⟨u, e, _, _, by simp only [List.append_assoc], derives_operand.mp g,
      derives_operatorTail.mpr ⟨t₁, k₁, t₂, k₂, t₃, k₃, t₄, k₄, t₅, k₅, t₆, k₆, t₇, k₇, rfl, h₁, h₂,
        h₃, h₄, h₅, h₆, h₇, rfl⟩, rfl⟩
  · rintro ⟨u, e, _, _, rfl, h, ht, rfl⟩
    obtain ⟨t₁, k₁, t₂, k₂, t₃, k₃, t₄, k₄, t₅, k₅, t₆, k₆, t₇, k₇, rfl, h₁, h₂, h₃, h₄, h₅, h₆,
      h₇, rfl⟩ := derives_operatorTail.mp ht
    have h : (operand .multiplicative).Derives u e := derives_operand.mpr h
    have h : (operand .additive).Derives _ _ :=
      derives_operand.mpr (derives_joined.mpr ⟨_, _, _, _, rfl, h, h₁, rfl⟩)
    have h : (operand .relational).Derives _ _ :=
      derives_operand.mpr (derives_joined.mpr ⟨_, _, _, _, rfl, h, h₂, rfl⟩)
    have h : (operand .equality).Derives _ _ :=
      derives_operand.mpr (derives_joined.mpr ⟨_, _, _, _, rfl, h, h₃, rfl⟩)
    have h : (operand .conjunction).Derives _ _ :=
      derives_operand.mpr (derives_joined.mpr ⟨_, _, _, _, rfl, h, h₄, rfl⟩)
    have h : (operand .disjunction).Derives _ _ :=
      derives_operand.mpr (derives_joined.mpr ⟨_, _, _, _, rfl, h, h₅, rfl⟩)
    exact ⟨_, _, t₇, k₇, by simp only [List.append_assoc],
      derives_joined.mpr ⟨_, _, _, _, rfl, h, h₆, rfl⟩, h₇, rfl⟩

theorem derives_primary {e : Expr} :
    primary.Derives w e ↔
      (∃ x t k, w = ⟨.identifier, x⟩ :: t ∧ selections.Derives t k ∧ k (.place (.named x)) = e) ∨
      (∃ x u args t k, w = ⟨.identifier, x⟩ :: (u ++ t) ∧ arguments.Derives u args ∧
        selections.Derives t k ∧ k (.call x args) = e) ∨
      (∃ u e₀ t k, w = u ++ t ∧ atom.Derives u e₀ ∧ selections.Derives t k ∧ k e₀ = e) := by
  rw [derives_iff]
  simp only [alternatives, primaryAlternatives, List.mem_cons, List.not_mem_nil, or_false,
    exists_eq_or_imp, exists_eq_left, Grammar.readsBy_take, Grammar.readsBy_node,
    Grammar.readsBy_last]
  constructor
  · rintro (⟨x, t, rfl, k, hk, rfl⟩ | ⟨x, _, rfl, u, args, t, rfl, hu, k, hk, rfl⟩ |
      ⟨u, e, t, rfl, hu, k, hk, rfl⟩)
    · exact .inl ⟨x, t, k, rfl, hk, rfl⟩
    · exact .inr (.inl ⟨x, u, args, t, k, rfl, hu, hk, rfl⟩)
    · exact .inr (.inr ⟨u, e, t, k, rfl, hu, hk, rfl⟩)
  · rintro (⟨x, t, k, rfl, hk, rfl⟩ | ⟨x, u, args, t, k, rfl, hu, hk, rfl⟩ |
      ⟨u, e, t, k, rfl, hu, hk, rfl⟩)
    · exact .inl ⟨x, t, rfl, k, hk, rfl⟩
    · exact .inr (.inl ⟨x, _, rfl, u, args, t, rfl, hu, k, hk, rfl⟩)
    · exact .inr (.inr ⟨u, e, t, rfl, hu, k, hk, rfl⟩)

theorem primary_of_atom {e : Expr} (h : atom.Derives w e) : primary.Derives w e :=
  derives_primary.mpr (.inr (.inr ⟨w, e, [], _, by simp, h, .intro (.tail _ (.tail _ (.tail _
    (.head _)))) (.nil _), rfl⟩))

theorem primary_append {e : Expr} {k : Expr → Expr} (h : primary.Derives u e)
    (hk : selections.Derives w k) : primary.Derives (u ++ w) (k e) := by
  rcases derives_primary.mp h with ⟨x, t, k', rfl, hk', rfl⟩ |
    ⟨x, v, args, t, k', rfl, hv, hk', rfl⟩ | ⟨v, e, t, k', rfl, hv, hk', rfl⟩
  · exact derives_primary.mpr (.inl ⟨x, _, _, rfl, selections_append hk' hk, rfl⟩)
  · exact derives_primary.mpr
      (.inr (.inl ⟨x, v, args, _, _, by simp, hv, selections_append hk' hk, rfl⟩))
  · exact derives_primary.mpr
      (.inr (.inr ⟨v, e, _, _, by simp, hv, selections_append hk' hk, rfl⟩))

/-- A primary expression can begin an expression that goes on like one after an operand. -/
theorem expression_of_primary {e : Expr} {k : Expr → Expr} (h : primary.Derives u e)
    (hk : operandTail.Derives w k) : expression.Derives (u ++ w) (k e) := by
  rcases derives_primary.mp h with ⟨x, t, k', rfl, hk', rfl⟩ |
    ⟨x, v, args, t, k', rfl, hv, hk', rfl⟩ | ⟨v, e, t, k', rfl, hv, hk', rfl⟩
  · exact .intro (.head _) (.take
      (.last (placeTail_of_operandTail (operandTail_of_selections hk' hk)) rfl))
  · rw [List.cons_append, List.append_assoc]
    exact .intro (.tail _ (.head _))
      (.take (.node hv (.last (operandTail_of_selections hk' hk) rfl)))
  · rw [List.append_assoc]
    exact .intro (.tail _ (.tail _ (.head _)))
      (.node hv (.last (operandTail_of_selections hk' hk) rfl))

theorem expression_of_conditional {e : Expr} (h : conditional.Derives w e) :
    expression.Derives w e := by
  obtain ⟨u, e₀, t, k, rfl, hu, hk, rfl⟩ := derives_conditional.mp h
  rw [derives_iff] at hu
  simp only [alternatives, List.mem_cons, List.not_mem_nil, or_false, exists_eq_or_imp,
    exists_eq_left, Grammar.readsBy_last, exists_eq_right] at hu
  rcases hu with hu | hu
  · exact .intro (.tail _ (.tail _ (.tail _ (.head _)))) (.node hu (.last hk rfl))
  · rw [derives_iff] at hu
    simp only [alternatives, List.mem_cons, List.not_mem_nil, or_false, exists_eq_or_imp,
      exists_eq_left, Grammar.readsBy_last, exists_eq_right] at hu
    rcases hu with hu | hu
    · exact expression_of_primary hu (operandTail_of_operatorTail hk)
    · exact .intro (.tail _ (.tail _ (.tail _ (.tail _ (.head _))))) (.node hu (.last hk rfl))

end Nonterminal

end MemberAccess.Java
