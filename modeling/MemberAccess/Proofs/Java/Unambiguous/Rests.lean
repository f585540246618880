import MemberAccess.Proofs.Java.Unambiguous.Angles

/-!
# What is left after a part of an expression

After an operand there are operators, the stronger ones first, and then what ends the expression.
-/

namespace MemberAccess.Java

namespace Nonterminal

variable {ss ys : List (Symbol Terminal Nonterminal)} {r y : List Lexeme}

/-- First the symbols are read and then an expression ends. -/
def Leaves (ss : List (Symbol Terminal Nonterminal)) (r : List Lexeme) : Prop :=
  ∃ y r', r = y ++ r' ∧ grammar.Spans ss y ∧ EndsExpression r'

theorem leaves_nil : Leaves [] r ↔ EndsExpression r := by
  constructor
  · rintro ⟨_, r, rfl, rfl, h⟩
    exact h
  · exact fun h => ⟨[], r, rfl, rfl, h⟩

theorem Leaves.append (h : Leaves ss r) (hy : grammar.Spans ys y) : Leaves (ys ++ ss) (y ++ r) := by
  obtain ⟨y', r, rfl, hy', hr⟩ := h
  exact ⟨y ++ y', r, (List.append_assoc ..).symm, Grammar.spans_append.mpr ⟨y, y', rfl, hy, hy'⟩, hr⟩

/-- What is read after a part of an expression before the expression ends. -/
def restOf (c : Context) : Nonterminal → Option (List (Symbol Terminal Nonterminal))
  | expression | operandTail | placeTail | operatorTail | conditional | conditionalTail
  | after (.mark .comma) expression | after (.mark .equal) expression
  | opt (after (.mark .equal) expression) | declarator | after (.mark .comma) declarator => some []
  | joined p | operators p => some (tails.drop (p.height + 1))
  | operand p => some (tails.drop p.height)
  | unary | unsigned | signed | negationOrCast | primary | selections => some tails
  | type => if c = .tested then some (tails.drop 2) else none
  | classType | many (after (.mark .dot) classTypePart) =>
    if c = .tested then some (.node dimensions :: tails.drop 2) else none
  | classTypePart | opt typeArguments | after (.mark .dot) classTypePart =>
    if c = .tested then
      some (.node (many (after (.mark .dot) classTypePart)) :: .node dimensions :: tails.drop 2)
    else none
  | _ => none

/-- What is left after a nonterminal is what is read after it. -/
def Rests (c : Context) (n : Nonterminal) (r : List Lexeme) : Prop :=
  ∀ ss ∈ restOf c n, Leaves ss r

/-- The terminals other than a comma with which an expression ends. -/
abbrev closers : List Terminal :=
  [.mark .rightParenthesis, .mark .rightBracket, .mark .semicolon, .mark .colon]

/-- The pairs of nonterminals for which it takes an argument that the second one rests in the
first. -/
def restExceptions : List (Nonterminal × Nonterminal) :=
  [(expression, signed), (expression, negationOrCast), (arguments, expression),
   (many (next expression), next expression), (declaration, declarator),
   (many (next declarator), next declarator)]

/-- What is read after `m` in an alternative of `n` is read after `m` according to `restOf`. -/
def restsIn (c : Context) (n m : Nonterminal) (ys : List (Symbol Terminal Nonterminal)) : Bool :=
  match restOf (inside c n m) m with
  | none => true
  | some ss =>
    (restOf c n).any (ys ++ · = ss) ||
      ss = [] && (firstTable.heads (follow c n) ys).all (· ∈ closers) ||
      (n, m) ∈ restExceptions

def restsAll (c : Context) (n : Nonterminal) : List (Symbol Terminal Nonterminal) → Bool
  | [] => true
  | .node m :: ss => restsIn c n m ss && restsAll c n ss
  | _ :: ss => restsAll c n ss

theorem restsAll_of_mem :
    ∀ p ∈ places, ∀ a ∈ p.2.alternatives, restsAll p.1 p.2 a.symbols := by decide +kernel

theorem restsAll_of_occurs {c : Context} {n : Nonterminal} (h : occurs c n) :
    ∀ a ∈ n.alternatives, restsAll c n a.symbols := by
  unfold occurs at h
  split at h
  · obtain rfl := of_decide_eq_true h
    exact of_decide_eq_true rfl
  · rename_i k
    obtain rfl := of_decide_eq_true h
    cases k <;> exact of_decide_eq_true rfl
  · exact restsAll_of_mem _ (of_decide_eq_true h)

theorem endsExpression_of_expressions {m : List Lexeme}
    (hm : grammar.Is (many (next expression)) m) (hr : Heads [.mark .rightParenthesis] r) :
    EndsExpression (m ++ r) := by
  induction hn : m.length using Nat.strongRecOn generalizing m with
  | _ n ih =>
    rcases is_many_iff.mp hm with ⟨u, m, rfl, hu, hm'⟩ | rfl
    · obtain ⟨x, e, rfl, he⟩ := is_after_iff.mp hu
      have hend := ih m.length (by simp at hn; omega) hm' rfl
      refine ⟨by simp, ?_⟩
      rintro ⟨l, y, c, hl, hl', hc⟩
      rcases is_many_iff.mp hl' with ⟨v, l, rfl, hv, hl₁⟩ | rfl
      · obtain ⟨z, a, rfl, ha⟩ := is_after_iff.mp hv
        obtain ⟨-, hl⟩ := List.cons.inj hl
        have hl : e ++ (m ++ r) = a ++ (l ++ ⟨.mark .greater, y⟩ :: c) := by simpa using hl
        exact not_expression_of_angles he hend ha hl₁ hl hc
      · simp at hl
    · exact endsExpression_of_heads (hr.mono (by decide))

/-- A name that is declared is no argument of a type with its closing bracket. -/
theorem not_declarator_of_angles {u a l s c : List Lexeme} {y : Text}
    (hu : grammar.Is declarator u) (hs : Heads [.mark .comma, .mark .semicolon] s)
    (ha : grammar.Is typeArgument a) (hl : grammar.Is (many (next typeArgument)) l)
    (he : u ++ s = a ++ (l ++ ⟨.mark .greater, y⟩ :: c)) : s = l ++ ⟨.mark .greater, y⟩ :: c := by
  have hc : Heads [.mark .comma, .mark .greater] (l ++ ⟨.mark .greater, y⟩ :: c) :=
    heads_of_closing hl
  obtain ⟨x, _, rfl, d, i, rfl, hd, hi⟩ := is_declarator_iff.mp hu
  have hi' := heads_of_value hi hs
  rcases is_typeArgument ha with ha | ⟨z, a, rfl⟩
  · rcases is_typeTail_or_primitive ha with ⟨p, e, rfl, hp, -⟩ | ⟨z, b, rfl, hb⟩
    · rw [List.append_assoc] at he
      exact (false_of_first hp rfl he (by decide)).elim
    · obtain ⟨-, he⟩ := List.cons.inj he
      have he : d ++ (i ++ s) = b ++ (l ++ ⟨.mark .greater, y⟩ :: c) := by simpa using he
      have hd' := heads_of_dimensions hd hi'
      have hv : i ++ s = l ++ ⟨.mark .greater, y⟩ :: c := by
        rcases hb.cases with rfl | ⟨_, _, b, rfl, hb'⟩ | ⟨_, _, b, rfl, -⟩ | ⟨_, _, _, _, b, rfl, -⟩
        · rcases is_dimensions_iff.mp hd with ⟨_, _, rfl, _, d, rfl, -⟩ | rfl
          · rw [List.nil_append] at he
            rw [← he] at hc
            exact absurd hc (not_heads_cons (by decide))
          · exact he
        · exact eq_of_dimensions hd (is_dimensions_iff.mpr (.inl ⟨_, _, rfl, _, b, rfl, hb'⟩)) he
            (hi'.mono (by decide)) (hc.mono (by decide))
        · rw [he] at hd'
          exact absurd hd' (not_heads_cons (by decide))
        · rw [he] at hd'
          exact absurd hd' (not_heads_cons (by decide))
      rcases is_opt_iff.mp hi with hi | rfl
      · obtain ⟨z, i, rfl, -⟩ := is_after_iff.mp hi
        rw [← hv] at hc
        exact absurd hc (not_heads_cons (by decide))
      · exact hv
  · simp at he

theorem endsExpression_of_declarators {m : List Lexeme}
    (hm : grammar.Is (many (next declarator)) m) (hr : Heads [.mark .semicolon] r) :
    EndsExpression (m ++ r) := by
  induction hn : m.length using Nat.strongRecOn generalizing m with
  | _ n ih =>
    rcases is_many_iff.mp hm with ⟨u, m, rfl, hu, hm'⟩ | rfl
    · obtain ⟨x, e, rfl, he⟩ := is_after_iff.mp hu
      have hend := ih m.length (by simp at hn; omega) hm' rfl
      refine ⟨by simp, ?_⟩
      rintro ⟨l, y, c, hl, hl', hc⟩
      rcases is_many_iff.mp hl' with ⟨v, l, rfl, hv, hl₁⟩ | rfl
      · obtain ⟨z, a, rfl, ha⟩ := is_after_iff.mp hv
        obtain ⟨-, hl⟩ := List.cons.inj hl
        have hl : e ++ (m ++ r) = a ++ (l ++ ⟨.mark .greater, y⟩ :: c) := by simpa using hl
        have hs := heads_of_declarators hm' hr
        exact hend.2 ⟨l, y, c, not_declarator_of_angles he hs ha hl₁ hl, hl₁, hc⟩
      · simp at hl
    · exact endsExpression_of_heads (hr.mono (by decide))

theorem restsIn_of_mem_afters {c : Context} {n m : Nonterminal} (h : restsAll c n ss)
    (hy : ys ∈ Grammar.afters m ss) : restsIn c n m ys := by
  induction ss with
  | nil => cases hy
  | cons x ss ih =>
    rw [Grammar.afters] at hy
    split at hy
    · rename_i hx
      subst hx
      rw [restsAll, Bool.and_eq_true] at h
      rcases List.mem_cons.mp hy with rfl | hy
      · exact h.1
      · exact ih h.2 hy
    · refine ih ?_ hy
      cases x with
      | skip t | take t => exact h
      | node m =>
        rw [restsAll, Bool.and_eq_true] at h
        exact h.2

theorem leaves_of_restExceptions {c : Context} {n m : Nonterminal} (h : (n, m) ∈ restExceptions)
    (hys : ys ∈ rests n m) (hr : Rests c n r) (hs : Heads (follow c n) r) (hy : grammar.Spans ys y)
    (hss : restOf (inside c n m) m = some ss) : Leaves ss (y ++ r) := by
  simp only [restExceptions, List.mem_cons, List.not_mem_nil, or_false, Prod.mk.injEq] at h
  rcases h with ⟨rfl, rfl⟩ | ⟨rfl, rfl⟩ | ⟨rfl, rfl⟩ | ⟨rfl, rfl⟩ | ⟨rfl, rfl⟩ | ⟨rfl, rfl⟩
  · obtain rfl : ys = [.node operatorTail] := List.mem_singleton.mp hys
    obtain rfl : tails = ss := Option.some.inj hss
    have ht := is_operatorTail_iff.mp (Grammar.spans_singleton.mp hy)
    simpa using (hr [] rfl).append ht
  · obtain rfl : ys = [.node operatorTail] := List.mem_singleton.mp hys
    obtain rfl : tails = ss := Option.some.inj hss
    have ht := is_operatorTail_iff.mp (Grammar.spans_singleton.mp hy)
    simpa using (hr [] rfl).append ht
  · obtain rfl : ys = [.node (many (next expression)), mark .rightParenthesis] :=
      List.mem_singleton.mp hys
    obtain rfl : [] = ss := Option.some.inj hss
    obtain ⟨m, _, rfl, hm, x, _, rfl, rfl⟩ := hy
    rw [List.append_assoc]
    exact leaves_nil.mpr (endsExpression_of_expressions hm (by simp))
  · obtain rfl : ys = [.node (many (next expression))] := List.mem_singleton.mp hys
    obtain rfl : [] = ss := Option.some.inj hss
    exact leaves_nil.mpr (endsExpression_of_expressions (Grammar.spans_singleton.mp hy) hs)
  · obtain rfl : ys = [.node (many (next declarator))] := List.mem_singleton.mp hys
    obtain rfl : [] = ss := Option.some.inj hss
    exact leaves_nil.mpr (endsExpression_of_declarators (Grammar.spans_singleton.mp hy) hs)
  · obtain rfl : ys = [.node (many (next declarator))] := List.mem_singleton.mp hys
    obtain rfl : [] = ss := Option.some.inj hss
    exact leaves_nil.mpr (endsExpression_of_declarators (Grammar.spans_singleton.mp hy) hs)

theorem each_rests {c : Context} {n : Nonterminal} {a : Alternative Terminal Value n}
    {s : List Lexeme} (ha : a ∈ n.alternatives) (ho : occurs c n) (hr : Rests c n r)
    (hs : Heads (follow c n) r) :
    grammar.Each (fun m _ r => Rests (inside c n m) m r) a.symbols s r := by
  refine .of_afters fun m ys hys _ y hy ss hss => ?_
  have h := restsIn_of_mem_afters (restsAll_of_occurs ho a ha) hys
  simp only [restsIn, Option.mem_def.mp hss, Bool.or_eq_true, Bool.and_eq_true,
    decide_eq_true_eq, Option.any_eq_true, List.all_eq_true] at h
  rcases h with (⟨ss', hss', rfl⟩ | ⟨rfl, hc⟩) | h
  · exact (hr ss' hss').append hy
  · exact leaves_nil.mpr (endsExpression_of_heads
      ((Grammar.Table.heads_append hy hs).mono fun k hk => hc k hk))
  · exact leaves_of_restExceptions h (mem_rests ha hys) hr hs hy hss

end Nonterminal

end MemberAccess.Java
