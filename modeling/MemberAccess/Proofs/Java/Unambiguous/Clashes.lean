import MemberAccess.Proofs.Java.Unambiguous.Angles

/-!
# Alternatives that can begin alike

A name can begin an expression and the class of a literal, a parenthesis an expression in
parentheses and a cast, and a type with arguments a declaration and a comparison. What comes later
tells them apart.
-/

namespace MemberAccess.Java

namespace Nonterminal

variable {t u w r c s : List Lexeme}

/-- What begins with a name is the class of a literal if it is read as an atom. -/
theorem exists_literal {v : List Lexeme} {x : Text} (hv : grammar.Is atom v)
    (he : ⟨.identifier, x⟩ :: t = v ++ s) :
    ∃ b d z, IsTypeTail b ∧ t = b ++ ⟨.mark .dot, d⟩ :: ⟨.keyword .class_, z⟩ :: s := by
  rcases is_atom_iff.mp hv with hv | ⟨a, _, rfl, ha, d, _, rfl, z, rfl⟩ | ⟨z, rfl⟩ |
    ⟨z, t, rfl, -⟩ | ⟨z, t, rfl, -⟩
  · exact (false_of_first hv rfl he (by decide)).elim
  · rcases is_result_iff.mp ha with ha | ⟨y, rfl⟩
    · rcases is_typeTail_or_primitive ha with ⟨p, e, rfl, hp, -⟩ | ⟨y, b, rfl, hb⟩
      · rw [List.append_assoc, List.append_assoc] at he
        exact (false_of_first hp rfl he (by decide)).elim
      · obtain ⟨-, rfl⟩ := List.cons.inj he
        exact ⟨b, d, z, hb, by simp⟩
    · simp at he
  · simp at he
  · simp at he
  · simp at he

theorem avoids_of_closing {b : List Lexeme} (hb : Heads [.mark .dot, .mark .leftBracket] b)
    (hc : Avoids operandFirst c) : Avoids operandFirst (b ++ c) := by
  cases b with
  | nil => exact hc
  | cons l b => exact hb.avoids (by decide)

/-- A name that is a place is not read as the class of a literal. -/
theorem not_literal_of_placeTail {v : List Lexeme} {x : Text} (ht : grammar.Is placeTail t)
    (hr : EndsExpression r) (hv : grammar.Is atom v)
    (he : ⟨.identifier, x⟩ :: (t ++ r) = v ++ s) : False := by
  obtain ⟨b, d, z, hb, he₁⟩ := exists_literal hv he
  rcases names_or_angle ht hb he₁ hr.1 (by simp) with ⟨t', ht', he₂, -⟩ |
    ⟨q, y, u, a, l, y', b', -, -, hu, ha, hl, hb', he₂⟩
  · obtain ⟨t, rfl, he₃⟩ := exists_tail he₂ hr.1 (by decide)
    obtain ⟨y, t, rfl, -⟩ := placeTail_dot ht'
    simp at he₃
  · exact not_expression_of_angles (is_expression_of_conditional hu) hr ha hl he₂
      (avoids_of_closing hb' (.cons (by decide)))

/-- The name of a method is not read as the class of a literal. -/
theorem not_literal_of_arguments {v a : List Lexeme} {x : Text} (ha : grammar.Is arguments a)
    (hv : grammar.Is atom v) (he : ⟨.identifier, x⟩ :: (a ++ r) = v ++ s) : False := by
  obtain ⟨b, d, z, hb, he₁⟩ := exists_literal hv he
  exact not_arguments_of_typeTail ha hb he₁ (by simp)

/-- An expression in parentheses is not read as a cast if no operand comes after it. -/
theorem not_cast_of_parenthesis {e v : List Lexeme} {x y : Text} (h : grammar.Is expression e)
    (hv : grammar.Is negationOrCast v)
    (he : ⟨.mark .leftParenthesis, x⟩ :: (e ++ ⟨.mark .rightParenthesis, y⟩ :: r) = v ++ s)
    (hr : Avoids unsigned.first r) : False := by
  have hend : EndsExpression (⟨.mark .rightParenthesis, y⟩ :: r) :=
    endsExpression_of_heads (by simp)
  rcases is_negationOrCast_iff.mp hv with ⟨z, t, rfl, -⟩ |
    ⟨z, _, rfl, p, _, rfl, hp, d, _, rfl, hd, q, t, rfl, ht⟩ |
    ⟨z, _, rfl, p, _, rfl, hp, d, _, rfl, hd, q, t, rfl, ht⟩
  · simp at he
  · obtain ⟨-, he₁⟩ := List.cons.inj he
    have he₂ : e ++ ⟨.mark .rightParenthesis, y⟩ :: r =
        (p ++ d) ++ (⟨.mark .rightParenthesis, q⟩ :: t ++ s) := by simpa using he₁
    obtain ⟨_, _, _, -, -, hpd, -⟩ :=
      exists_place h (is_type_iff.mpr (.inl ⟨p, d, rfl, hp, hd⟩)) he₂ (by simp)
    exact false_of_first hp rfl hpd.symm (by decide)
  · obtain ⟨-, he₁⟩ := List.cons.inj he
    have he₂ : e ++ ⟨.mark .rightParenthesis, y⟩ :: r =
        (p ++ d) ++ (⟨.mark .rightParenthesis, q⟩ :: t ++ s) := by simpa using he₁
    obtain ⟨_, t', b, rfl, ht', -, hb, he₃⟩ :=
      exists_place h (is_type_iff.mpr (.inr ⟨p, d, rfl, hp, hd⟩)) he₂ (by simp)
    rcases names_or_angle ht' hb he₃ hend.1 (by simp) with ⟨t', ht', he₄, -⟩ |
      ⟨_, _, u, a, l, y', b', -, -, hu, ha, hl, hb', he₄⟩
    · obtain ⟨rfl, he₅⟩ := eq_nil_of_first ht' (by decide) he₄
      obtain ⟨-, rfl⟩ := List.cons.inj he₅
      obtain ⟨k, t, rfl, hk⟩ := firstTable.exists_cons_of_is ht rfl
      exact avoids_cons.mp hr hk
    · exact not_expression_of_angles (is_expression_of_conditional hu) hend ha hl he₄
        (avoids_of_closing hb' (.cons (by decide)))

theorem not_cast_of_atom {a v : List Lexeme} (ha : grammar.Is atom a)
    (hv : grammar.Is negationOrCast v) (he : a ++ r = v ++ s) (hr : Avoids unsigned.first r) :
    False := by
  rcases is_atom_iff.mp ha with ha | ⟨b, _, rfl, hb, d, _, rfl, z, rfl⟩ | ⟨z, rfl⟩ |
    ⟨z, _, rfl, e, _, rfl, h, p, rfl⟩ | ⟨z, t, rfl, -⟩
  · exact false_of_firsts ha hv he rfl rfl (by decide)
  · rw [List.append_assoc] at he
    exact false_of_firsts hb hv he rfl rfl (by decide)
  · exact false_of_first hv rfl he (by decide)
  · have he₁ : ⟨.mark .leftParenthesis, z⟩ :: (e ++ ⟨.mark .rightParenthesis, p⟩ :: r) = v ++ s := by
      simpa using he
    exact not_cast_of_parenthesis h hv he₁ hr
  · exact false_of_first hv rfl he (by decide)

/-- The lexemes begin like a declaration of a variable whose type has a name for its argument. -/
def BeginsAngles (s : List Lexeme) : Prop :=
  ∃ q x q' y n z t, grammar.Is name q ∧ grammar.Is name q' ∧
    s = q ++ ⟨.mark .less, x⟩ ::
      (q' ++ ⟨.mark .greater, y⟩ :: ⟨.identifier, n⟩ :: ⟨.mark .semicolon, z⟩ :: t)

/-- The lexemes are a declaration of a variable whose type has a name for its argument, and they are
a comparison as well. -/
def IsAngles (w : List Lexeme) : Prop :=
  ∃ q x q' y n, grammar.Is name q ∧ grammar.Is name q' ∧
    w = q ++ ⟨.mark .less, x⟩ :: (q' ++ [⟨.mark .greater, y⟩, ⟨.identifier, n⟩])

/-- After the name that is declared, nothing is left of an operand. -/
theorem eq_nil_of_operandTail {d i m : List Lexeme} {y z : Text} (ht : grammar.Is operandTail t)
    (hd : grammar.Is dimensions d) (hi : grammar.Is (opt (after (.mark .equal) expression)) i)
    (hm : grammar.Is (many (next declarator)) m)
    (he : t ++ ⟨.mark .semicolon, y⟩ :: r = d ++ (i ++ (m ++ ⟨.mark .semicolon, z⟩ :: s))) :
    t = [] ∧ d = [] ∧ i = [] ∧ m = [] := by
  rcases is_dimensions_iff.mp hd with ⟨l, _, rfl, b, d, rfl, -⟩ | rfl
  · obtain ⟨t, rfl, he₁⟩ := exists_tail he (by simp) (by decide)
    obtain ⟨e, t', rfl, h⟩ := placeTail_bracket (is_placeTail ht)
    rw [List.append_assoc] at he₁
    exact (false_of_first h rfl he₁.symm (by decide)).elim
  rcases is_opt_iff.mp hi with hi | rfl
  · obtain ⟨l, i, rfl, -⟩ := is_after_iff.mp hi
    cases (eq_nil_of_first ht (by decide) he).2
  rcases is_many_iff.mp hm with ⟨u, m, rfl, hu, -⟩ | rfl
  · obtain ⟨l, u, rfl, -⟩ := is_after_iff.mp hu
    cases (eq_nil_of_first ht (by decide) he).2
  exact ⟨(eq_nil_of_first ht (by decide) he).1, rfl, rfl, rfl⟩

/-- The name that is declared is the operand, and after it there is nothing but the end of the
statement, if the name can be read as the last operand of an expression. -/
theorem eq_nil_of_conditional {d i m : List Lexeme} {x y z : Text}
    (h : grammar.Is conditional t) (hd : grammar.Is dimensions d)
    (hi : grammar.Is (opt (after (.mark .equal) expression)) i)
    (hm : grammar.Is (many (next declarator)) m)
    (he : t ++ ⟨.mark .semicolon, y⟩ :: r =
      ⟨.identifier, x⟩ :: (d ++ (i ++ (m ++ ⟨.mark .semicolon, z⟩ :: s)))) :
    t = [⟨.identifier, x⟩] ∧ d = [] ∧ i = [] ∧ m = [] := by
  have hc : Heads _ (i ++ (m ++ ⟨.mark .semicolon, z⟩ :: s)) :=
    heads_of_value hi (heads_of_declarators hm (by simp))
  have hdc := heads_of_dimensions hd hc
  obtain ⟨k, t, rfl, -⟩ := firstTable.exists_cons_of_is h rfl
  obtain ⟨rfl, he₁⟩ := List.cons.inj he
  change t ++ _ = _ at he₁
  rcases conditional_name h with ht | ⟨a, t', rfl, ha⟩ | ⟨v, t', hv, ha⟩
  · obtain ⟨rfl, rfl, rfl, rfl⟩ := eq_nil_of_operandTail ht hd hi hm he₁
    exact ⟨rfl, rfl, rfl, rfl⟩
  · obtain ⟨⟨k, l⟩, a, rfl, hk⟩ := firstTable.exists_cons_of_is ha rfl
    obtain rfl := List.mem_singleton.mp hk
    rw [← he₁] at hdc
    exact absurd hdc (not_heads_cons (by decide))
  · obtain ⟨b, l, w, hb, rfl⟩ := exists_literal ha hv
    have he₂ : b ++ (⟨.mark .dot, l⟩ :: ⟨.keyword .class_, w⟩ :: t' ++ ⟨.mark .semicolon, y⟩ :: r) =
        d ++ (i ++ (m ++ ⟨.mark .semicolon, z⟩ :: s)) := by simpa using he₁
    rcases hb.cases with rfl | ⟨_, _, b, rfl, hb'⟩ | ⟨_, _, b, rfl, -⟩ | ⟨_, _, _, _, b, rfl, -⟩
    · rw [← he₂] at hdc
      exact absurd hdc (not_heads_cons (by decide))
    · have := eq_of_dimensions (is_dimensions_iff.mpr (.inl ⟨_, _, rfl, _, b, rfl, hb'⟩)) hd he₂
        (by simp [follow]) (hc.mono (by decide))
      rw [← this] at hc
      exact absurd hc (not_heads_cons (by decide))
    · rw [← he₂] at hdc
      exact absurd hdc (not_heads_cons (by decide))
    · rw [← he₂] at hdc
      exact absurd hdc (not_heads_cons (by decide))

/-- A name with a type before it is read as an operand only after the name that is the argument of
the type. -/
theorem exists_angles {a e : List Lexeme} {x y : Text} (ha : grammar.Is type a)
    (h : grammar.Is expression e)
    (he : e ++ ⟨.mark .semicolon, y⟩ :: r = a ++ ⟨.identifier, x⟩ :: s) :
    ∃ q l q' g t, grammar.Is name q ∧ grammar.Is name q' ∧ grammar.Is conditional t ∧
      e ++ ⟨.mark .semicolon, y⟩ :: r =
        q ++ ⟨.mark .less, l⟩ :: (q' ++ ⟨.mark .greater, g⟩ :: ⟨.identifier, x⟩ :: s) ∧
      t ++ ⟨.mark .semicolon, y⟩ :: r = ⟨.identifier, x⟩ :: s := by
  have hend : EndsExpression (⟨.mark .semicolon, y⟩ :: r) := endsExpression_of_heads (by simp)
  obtain ⟨n, t, b, rfl, ht, rfl, hb, he₁⟩ := exists_place h ha he (by simp)
  rcases names_or_angle ht hb he₁ hend.1 (.cons (by decide)) with ⟨t', ht', he₂, -⟩ |
    ⟨q, l, u, a, m, g, b', hq, rfl, hu, ha', hm, hb', he₂⟩
  · cases (eq_nil_of_first ht' (by decide) he₂).2
  · have hue := is_expression_of_conditional hu
    have hs : Heads [.mark .comma, .mark .greater]
        (m ++ ⟨.mark .greater, g⟩ :: (b' ++ ⟨.identifier, x⟩ :: s)) := heads_of_closing hm
    rcases is_typeArgument ha' with ha' | ⟨z, a, rfl⟩
    · obtain ⟨n', t, b, rfl, ht, rfl, hb, he₃⟩ := exists_place hue ha' he₂ (hs.mono (by decide))
      rcases names_or_angle ht hb he₃ hend.1 (hs.avoids (by decide)) with ⟨t', ht', he₄, hq'⟩ |
        ⟨_, _, u', a', m', g', b'', -, -, hu', ha'', hm', hb'', he₄⟩
      · cases m with
        | nil =>
          obtain ⟨t', rfl, he₅⟩ := exists_tail he₄ hend.1 (by decide)
          have ht' := conditional_of_placeTail (by simp) ht'
          cases b' with
          | nil =>
            refine ⟨⟨.identifier, n⟩ :: q, l, ⟨.identifier, n'⟩ :: b, g, t', is_name hq,
              is_name hq', ht', ?_, he₅⟩
            simpa using he₃
          | cons k b' =>
            have hk : ∀ k ∈ [Terminal.mark .dot, .mark .leftBracket], k ∉ conditional.first := by
              decide
            exact (false_of_first ht' rfl he₅.symm (hk _ (heads_cons.mp hb'))).elim
        | cons k m =>
          have hk := List.mem_singleton.mp (heads_cons.mp (firstTable.heads_of_is hm))
          obtain ⟨k, w⟩ := k
          obtain rfl : k = .mark .comma := hk
          cases (eq_nil_of_first ht' (by decide) he₄).2
      · exact (not_expression_of_angles (is_expression_of_conditional hu') hend ha'' hm' he₄
          (avoids_of_closing hb'' (hs.avoids (by decide)))).elim
    · exact (false_of_first hue rfl he₂.symm (by decide)).elim

/-- A declaration and a statement are read from one stream only if both are the same comparison. -/
theorem isAngles_of_declaration {d k : List Lexeme} {z : Text} (hd : grammar.Is declaration d)
    (hk : grammar.Is (chain 0) k) (he : d ++ ⟨.mark .semicolon, z⟩ :: s = k ++ r) :
    IsAngles d ∧ k = d ++ [⟨.mark .semicolon, z⟩] := by
  obtain ⟨m, _, rfl, hm, a, _, rfl, ha, _, t, rfl, hdecl, ht⟩ := is_declaration_iff.mp hd
  obtain ⟨x, _, rfl, e, i, rfl, hdim, hi⟩ := is_declarator_iff.mp hdecl
  cases m with
  | cons l m =>
    have hl := heads_cons.mp (firstTable.heads_of_is hm)
    have hd : ∀ k ∈ (many variableModifier).first, k ∉ (chain 0).first := by decide
    exact (false_of_first hk rfl he (hd _ hl)).elim
  | nil =>
    have he₁ : a ++ ⟨.identifier, x⟩ :: (e ++ (i ++ (t ++ ⟨.mark .semicolon, z⟩ :: s))) = k ++ r := by
      simpa using he
    obtain ⟨l, a, rfl, hl⟩ := firstTable.exists_cons_of_is ha rfl
    obtain ⟨l', k, rfl, -⟩ := firstTable.exists_cons_of_is hk rfl
    obtain ⟨rfl, -⟩ := List.cons.inj he₁
    obtain ⟨b, y, k', hb, hexp, hk'⟩ := expression_of_chain hl hk
    obtain rfl := is_chainEnd_zero.mp hk'
    rw [hb, List.append_assoc, List.singleton_append] at he₁
    obtain ⟨q, n, q', g, c, hq, hq', hc, he₂, he₃⟩ := exists_angles ha hexp he₁.symm
    obtain ⟨rfl, rfl, rfl, rfl⟩ := eq_nil_of_conditional hc hdim hi ht he₃
    obtain ⟨hz, rfl⟩ := List.cons.inj (List.cons.inj he₃).2
    have hbd : b = l :: a ++ [⟨.identifier, x⟩] := by
      refine (List.append_left_inj (⟨.mark .semicolon, z⟩ :: r)).mp ?_
      simpa [hz] using he₁.symm
    have hbq : b = q ++ ⟨.mark .less, n⟩ :: (q' ++ [⟨.mark .greater, g⟩, ⟨.identifier, x⟩]) :=
      (List.append_left_inj (⟨.mark .semicolon, z⟩ :: r)).mp (by simpa [hz] using he₂)
    refine ⟨⟨q, n, q', g, x, hq, hq', ?_⟩, ?_⟩
    · rw [← hbq, hbd]
      simp
    · rw [hb, hbd, hz]
      simp

/-- A declaration and a statement are read from one stream only where it begins with such a type. -/
theorem beginsAngles {d k : List Lexeme} {z : Text} (hd : grammar.Is declaration d)
    (hk : grammar.Is (chain 0) k) (he : d ++ ⟨.mark .semicolon, z⟩ :: s = k ++ r) :
    BeginsAngles (d ++ ⟨.mark .semicolon, z⟩ :: s) := by
  obtain ⟨⟨q, x, q', y, n, hq, hq', rfl⟩, -⟩ := isAngles_of_declaration hd hk he
  exact ⟨q, x, q', y, n, z, s, hq, hq', by simp⟩

end Nonterminal

end MemberAccess.Java
