import MemberAccess.Proofs.Java.Shape
import MemberAccess.Proofs.Java.Unambiguous.Types

/-!
# Angle brackets

The marks `<` and `>` are operators and also stand around the arguments of a type. A name and what
follows it cannot be read both as an expression and as a type with arguments, unless after the
closing bracket there is an operand.
-/

namespace MemberAccess.Java

namespace Nonterminal

variable {t u w r c : List Lexeme}

/-- After arguments of a type there is a closing bracket, but no operand after it. -/
def ClosesAngle (c : List Lexeme) : Prop :=
  ∃ l y c', c = l ++ ⟨.mark .greater, y⟩ :: c' ∧ grammar.Is (many (next typeArgument)) l ∧
    Avoids operandFirst c'

/-- What is left after an expression. A comma does not go on with arguments of a type. -/
def EndsExpression (r : List Lexeme) : Prop := Heads expressionEnd r ∧ ¬ ClosesAngle r

theorem endsExpression_of_heads (h : Heads [.mark .rightParenthesis, .mark .rightBracket,
    .mark .semicolon, .mark .colon] r) : EndsExpression r := by
  refine ⟨h.mono (by decide), ?_⟩
  rintro ⟨l, y, c, rfl, hl, -⟩
  cases l with
  | nil => simp at h
  | cons x l =>
    have hx := heads_cons.mp (firstTable.heads_of_is hl)
    have : ∀ k ∈ firstTable.first (many (next typeArgument)),
        k ∉ [Terminal.mark .rightParenthesis, .mark .rightBracket, .mark .semicolon,
          .mark .colon] := by decide
    exact this _ hx (heads_cons.mp h)

/-- What does not end an expression belongs to its tail. -/
theorem exists_tail {k : Terminal} {x : Text} {s : List Lexeme} (he : t ++ r = ⟨k, x⟩ :: s)
    (hr : Heads expressionEnd r) (hk : k ∉ expressionEnd) :
    ∃ t', t = ⟨k, x⟩ :: t' ∧ t' ++ r = s := by
  cases t with
  | nil =>
    obtain rfl : r = ⟨k, x⟩ :: s := he
    exact absurd hr (not_heads_cons hk)
  | cons l t' =>
    obtain ⟨rfl, ht'⟩ := List.cons.inj he
    exact ⟨t', rfl, ht'⟩

theorem placeTail_dot {d : Text} (ht : grammar.Is placeTail (⟨.mark .dot, d⟩ :: t)) :
    ∃ x t', t = ⟨.identifier, x⟩ :: t' ∧
      (grammar.Is placeTail t' ∨ ∃ a t'', t' = a ++ t'' ∧ grammar.Is arguments a) := by
  rcases is_placeTail_iff.mp ht with ⟨x, _, he, -⟩ | ht
  · simp at he
  · rcases is_operandTail_iff.mp ht with ⟨x, _, he, y, t', rfl, ht'⟩ |
      ⟨x, _, he, y, t', rfl, a, t'', rfl, ha, -⟩ | ⟨x, _, he, -⟩ | ht
    · obtain ⟨-, rfl⟩ := List.cons.inj he
      exact ⟨y, t', rfl, .inl ht'⟩
    · obtain ⟨-, rfl⟩ := List.cons.inj he
      exact ⟨y, _, rfl, .inr ⟨a, t'', rfl, ha⟩⟩
    · simp at he
    · exact absurd (firstTable.heads_of_is ht) (not_heads_cons (by decide))

theorem placeTail_bracket {l : Text} (ht : grammar.Is placeTail (⟨.mark .leftBracket, l⟩ :: t)) :
    ∃ e t', t = e ++ t' ∧ grammar.Is expression e := by
  rcases is_placeTail_iff.mp ht with ⟨x, _, he, -⟩ | ht
  · simp at he
  · rcases is_operandTail_iff.mp ht with ⟨x, _, he, -⟩ | ⟨x, _, he, -⟩ |
      ⟨x, _, he, e, t', rfl, h, -⟩ | ht
    · simp at he
    · simp at he
    · obtain ⟨-, rfl⟩ := List.cons.inj he
      exact ⟨e, _, rfl, h⟩
    · exact absurd (firstTable.heads_of_is ht) (not_heads_cons (by decide))

theorem not_arguments_of_typeTail {a b s : List Lexeme} (ha : grammar.Is arguments a)
    (hb : IsTypeTail b) (he : a ++ s = b ++ c) (hc : Avoids [.mark .leftParenthesis] c) : False := by
  obtain ⟨⟨k, x⟩, a, rfl, hk⟩ := firstTable.exists_cons_of_is ha rfl
  obtain rfl := List.mem_singleton.mp hk
  cases b with
  | nil =>
    rw [List.nil_append] at he
    rw [← he] at hc
    simp at hc
  | cons l b =>
    obtain ⟨rfl, -⟩ := List.cons.inj he
    exact absurd (firstTable.heads_of_spans hb) (not_heads_cons (by decide))

/-- A name that is read on as an expression and as a type goes on with the same names, up to the end
of the type or to an angle bracket. -/
theorem names_or_angle {b : List Lexeme} (ht : grammar.Is placeTail t) (hb : IsTypeTail b)
    (he : t ++ r = b ++ c) (hr : Heads expressionEnd r) (hc : Avoids [.mark .leftParenthesis] c) :
    (∃ t', grammar.Is placeTail t' ∧ t' ++ r = c ∧ IsNames b) ∨
    ∃ q x u a l y b', IsNames q ∧ t = q ++ ⟨.mark .less, x⟩ :: u ∧ grammar.Is conditional u ∧
      grammar.Is typeArgument a ∧ grammar.Is (many (next typeArgument)) l ∧
      Heads [.mark .dot, .mark .leftBracket] b' ∧
      u ++ r = a ++ (l ++ ⟨.mark .greater, y⟩ :: (b' ++ c)) := by
  induction hn : b.length using Nat.strongRecOn generalizing t b with
  | _ n ih =>
    rcases hb.cases with rfl | ⟨l, z, d, rfl, -⟩ | ⟨d, x, b, rfl, hb'⟩ |
      ⟨x, a, l, y, b, rfl, ha, hl, hb'⟩
    · exact .inl ⟨t, ht, he, .nil⟩
    · obtain ⟨t, rfl, he₁⟩ := exists_tail he hr (by decide)
      obtain ⟨e, t', rfl, h⟩ := placeTail_bracket ht
      rw [List.append_assoc] at he₁
      exact (false_of_first h rfl he₁.symm (by decide)).elim
    · obtain ⟨t, rfl, he₁⟩ := exists_tail he hr (by decide)
      obtain ⟨z, t', rfl, ht' | ⟨a, t', rfl, ha⟩⟩ := placeTail_dot ht
      · obtain ⟨hz, he₂⟩ := List.cons.inj he₁
        rw [hz]
        rcases ih b.length (by simp at hn; omega) ht' hb' he₂ rfl with ⟨t', ht', he', hq⟩ |
          ⟨q, y, u, a, l, w, b', hq, rfl, h⟩
        · exact .inl ⟨t', ht', he', hq.cons⟩
        · exact .inr ⟨_, y, u, a, l, w, b', hq.cons, rfl, h⟩
      · obtain ⟨-, he₂⟩ := List.cons.inj he₁
        have he₃ : a ++ (t' ++ r) = b ++ c := by simpa using he₂
        exact (not_arguments_of_typeTail ha hb' he₃ hc).elim
    · obtain ⟨u, rfl, he₁⟩ := exists_tail he hr (by decide)
      refine .inr ⟨[], x, u, a, l, y, b, .nil, rfl, conditional_of_placeTail (by simp) ht, ha, hl,
        hb', ?_⟩
      simpa using he₁

/-- What can come after a type where an expression could stand. -/
abbrev typeStop : List Terminal :=
  [.mark .comma, .mark .greater, .mark .rightParenthesis, .identifier]

theorem heads_of_closing {l c : List Lexeme} {y : Text}
    (hl : grammar.Is (many (next typeArgument)) l) :
    Heads [.mark .comma, .mark .greater] (l ++ ⟨.mark .greater, y⟩ :: c) := by
  cases l with
  | nil => simp
  | cons x l =>
    exact (firstTable.heads_of_is hl).append (fun h => by cases h) |>.mono (by decide)

/-- The class of a literal does not end before the dot. -/
theorem false_of_literal {v a s : List Lexeme} (hv : grammar.Is atom v) (ha : grammar.Is type a)
    (he : v ++ s = a ++ c) (hc : Heads typeStop c) : False := by
  rcases is_atom_iff.mp hv with hv | ⟨b, _, rfl, hb, d, _, rfl, x, rfl⟩ | ⟨x, rfl⟩ |
    ⟨x, t, rfl, -⟩ | ⟨x, t, rfl, -⟩
  · exact false_of_firsts hv ha he rfl rfl (by decide)
  · rcases is_result_iff.mp hb with hb | ⟨z, rfl⟩
    · have he₁ : b ++ (⟨.mark .dot, d⟩ :: ⟨.keyword .class_, x⟩ :: s) = a ++ c := by simpa using he
      have := eq_of_types hb ha he₁ (by simp) (by simp [NoName]) (hc.mono (by decide))
        (noName_of_heads hc (by decide))
      rw [← this] at hc
      exact absurd hc (not_heads_cons (by decide))
    · exact false_of_first ha rfl he (by decide)
  · exact false_of_first ha rfl he (by decide)
  · exact false_of_first ha rfl he (by decide)
  · exact false_of_first ha rfl he (by decide)

/-- An expression at the place of a type, but not longer than it, begins with the name of the type. -/
theorem exists_place {a : List Lexeme} (hu : grammar.Is expression u) (ha : grammar.Is type a)
    (he : u ++ r = a ++ c) (hc : Heads typeStop c) :
    ∃ x t b, u = ⟨.identifier, x⟩ :: t ∧ grammar.Is placeTail t ∧
      a = ⟨.identifier, x⟩ :: b ∧ IsTypeTail b ∧ t ++ r = b ++ c := by
  rcases is_expression_iff.mp hu with ⟨x, t, rfl, ht⟩ | ⟨x, _, rfl, args, t, rfl, hargs, -⟩ |
    ⟨v, t, rfl, hv, -⟩ | ⟨v, t, rfl, hv, -⟩ | ⟨v, t, rfl, hv, -⟩
  · rcases is_typeTail_or_primitive ha with ⟨p, d, rfl, hp, -⟩ | ⟨z, b, rfl, hb⟩
    · rw [List.append_assoc] at he
      exact (false_of_first hp rfl he (by decide)).elim
    · obtain ⟨hx, he₁⟩ := List.cons.inj he
      obtain rfl := (Lexeme.mk.inj hx).2
      exact ⟨x, t, b, rfl, ht, rfl, hb, he₁⟩
  · rcases is_typeTail_or_primitive ha with ⟨p, d, rfl, hp, -⟩ | ⟨z, b, rfl, hb⟩
    · rw [List.append_assoc] at he
      exact (false_of_first hp rfl he (by decide)).elim
    · obtain ⟨-, he₁⟩ := List.cons.inj he
      have he₂ : args ++ (t ++ r) = b ++ c := by simpa using he₁
      exact (not_arguments_of_typeTail hargs hb he₂ (hc.avoids (by decide))).elim
  · rw [List.append_assoc] at he
    exact (false_of_literal hv ha he hc).elim
  · rw [List.append_assoc] at he
    exact (false_of_firsts hv ha he rfl rfl (by decide)).elim
  · rw [List.append_assoc] at he
    exact (false_of_firsts hv ha he rfl rfl (by decide)).elim

theorem not_operand_after_greater {l : List Lexeme} {y : Text} (ht : grammar.Is placeTail t)
    (hl : grammar.Is (many (next typeArgument)) l) (he : t ++ r = l ++ ⟨.mark .greater, y⟩ :: c)
    (hc : Avoids operandFirst c) : t = [] := by
  cases t with
  | nil => rfl
  | cons k t =>
    cases l with
    | nil =>
      obtain ⟨rfl, he₁⟩ := List.cons.inj he
      obtain ⟨k, t, rfl, hk⟩ :=
        firstTable.exists_cons_of_is (conditional_of_placeTail (by simp) ht) rfl
      obtain rfl : c = k :: (t ++ r) := he₁.symm
      exact absurd hk (avoids_cons.mp hc)
    | cons k' l =>
      obtain ⟨rfl, -⟩ := List.cons.inj he
      have := heads_cons.mp (firstTable.heads_of_is hl)
      obtain hk : k.terminal = .mark .comma := List.mem_singleton.mp this
      have := heads_cons.mp (firstTable.heads_of_is ht)
      rw [hk] at this
      exact absurd this (by decide)

/-- No expression stands where there are arguments of a type with their closing bracket, if no
operand comes after it. -/
theorem not_expression_of_angles {a l : List Lexeme} {y : Text} (hu : grammar.Is expression u)
    (hr : EndsExpression r) (ha : grammar.Is typeArgument a)
    (hl : grammar.Is (many (next typeArgument)) l)
    (he : u ++ r = a ++ (l ++ ⟨.mark .greater, y⟩ :: c)) (hc : Avoids operandFirst c) : False := by
  induction hn : u.length using Nat.strongRecOn generalizing u a l y c with
  | _ n ih =>
    have hs : Heads [.mark .comma, .mark .greater] (l ++ ⟨.mark .greater, y⟩ :: c) :=
      heads_of_closing hl
    rcases is_typeArgument ha with ha | ⟨x, a, rfl⟩
    · obtain ⟨x, t, b, rfl, ht, rfl, hb, he₁⟩ := exists_place hu ha he (hs.mono (by decide))
      rcases names_or_angle ht hb he₁ hr.1 (hs.avoids (by decide)) with ⟨t', ht', he₂, -⟩ |
        ⟨q, z, u, a', l', y', b', -, rfl, hu', ha', hl', hb', he₂⟩
      · obtain rfl := not_operand_after_greater ht' hl he₂ hc
        exact hr.2 ⟨l, y, c, he₂, hl, hc⟩
      · refine ih u.length (by simp at hn; omega) (is_expression_of_conditional hu') ha' hl' he₂
          ?_ rfl
        exact ((hb'.mono (List.subset_append_left _ [.mark .comma, .mark .greater])).append
          fun _ => hs.mono (by decide)).avoids (by decide)
    · exact false_of_first hu rfl he.symm (by decide)

end Nonterminal

end MemberAccess.Java
