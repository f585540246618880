import MemberAccess.Proofs.Java.Unambiguous.Blocks
import MemberAccess.Proofs.Java.Unambiguous.Rests

/-!
# Methods are read in one way

Wherever a nonterminal is read inside of a method, the stream and what is left of it tell the
alternatives apart. So a method has one value, unless a block statement begins like a declaration
whose type has a name for its argument.
-/

namespace MemberAccess.Java

namespace Nonterminal

/-- What is known of what is left where a nonterminal is read. -/
structure Ends (c : Context) (n : Nonterminal) (r : List Lexeme) : Prop where
  stands : Stands c n r
  dotless : Dotless c n r
  rests : Rests c n r

/-- What is known of a stream from which a nonterminal is read, and of what is left. -/
structure Admits (c : Context) (n : Nonterminal) (s r : List Lexeme) : Prop extends Ends c n r where
  angleFree : AngleFree s
  starts : Starts n s

theorem each_ends {c : Context} {n : Nonterminal} {a : Alternative Terminal Value n}
    {s r : List Lexeme} (ha : a ∈ n.alternatives) (h : Ends c n r) :
    grammar.Each (fun m _ r => Ends (inside c n m) m r) a.symbols s r := by
  refine (((each_stands ha h.stands).and (each_dotless ha h.dotless)).and
    (each_rests ha h.stands.1 h.rests h.stands.2)).mono ?_
  rintro m s r ⟨⟨hs, hd⟩, hr⟩
  exact ⟨hs, hd, hr⟩

theorem each_admits {c : Context} {n : Nonterminal} {a : Alternative Terminal Value n}
    {s r : List Lexeme} (ha : a ∈ n.alternatives) (h : Admits c n s r) :
    grammar.Each (fun m => Admits (inside c n m) m) a.symbols s r := by
  refine (((each_ends ha h.toEnds).and (each_angleFree h.angleFree)).and
    (each_starts ha h.stands.1 h.angleFree h.starts)).mono ?_
  rintro m s r ⟨⟨he, hf⟩, hb⟩
  exact ⟨he, hf, hb⟩

theorem apart_of_differLater {c : Context} {n : Nonterminal}
    {ss ss' : List (Symbol Terminal Nonterminal)}
    (h : firstTable.differLater (follow c n) ss ss') :
    grammar.Apart (fun _ r => Ends c n r) ss ss' :=
  Grammar.Table.apart_of_differLater (fun _ _ h => h.stands.2) h

theorem apart_expression : expression.alternatives.Pairwise
    fun a a' => grammar.Apart (fun _ r => Ends .plain expression r) a.symbols a'.symbols := by
  have hend : ∀ {r}, Ends .plain expression r → EndsExpression r :=
    fun h => leaves_nil.mp (h.rests [] rfl)
  simp only [alternatives, expressionAlternatives, List.pairwise_cons, List.forall_mem_cons,
    List.not_mem_nil, false_implies, implies_true, List.Pairwise.nil, and_true]
  refine ⟨⟨apart_of_differLater (by decide), ?_, apart_of_differLater (by decide),
    apart_of_differLater (by decide)⟩, ⟨?_, apart_of_differLater (by decide),
    apart_of_differLater (by decide)⟩, ⟨apart_of_differLater (by decide), ?_⟩,
    apart_of_differLater (by decide)⟩
  · rintro _ _ r r' ⟨x, _, rfl, t, _, rfl, ht, rfl⟩ ⟨v, _, rfl, hv, k, _, rfl, -, rfl⟩ he hr -
    refine not_literal_of_placeTail ht (hend hr) hv (s := k ++ r') (x := x) ?_
    simpa using he
  · rintro _ _ r r' ⟨x, _, rfl, a, _, rfl, ha, k, _, rfl, -, rfl⟩
      ⟨v, _, rfl, hv, k', _, rfl, -, rfl⟩ he - -
    refine not_literal_of_arguments ha hv (x := x) (r := k ++ r) (s := k' ++ r') ?_
    simpa using he
  · rintro _ _ r r' ⟨v, _, rfl, hv, k, _, rfl, hk, rfl⟩ ⟨w, _, rfl, hw, k', _, rfl, -, rfl⟩ he hr -
    refine not_cast_of_atom hv hw (r := k ++ r) (s := k' ++ r') (by simpa using he) ?_
    have hk : Heads (operandTail.first ++ expressionEnd) (k ++ r) :=
      ((firstTable.heads_of_is hk).mono (List.subset_append_left ..)).append fun _ =>
        (hend hr).1.mono (List.subset_append_right ..)
    exact hk.avoids (by decide)

theorem apart_unsigned : unsigned.alternatives.Pairwise
    fun a a' => grammar.Apart (fun _ r => Ends .plain unsigned r) a.symbols a'.symbols := by
  simp only [alternatives, List.pairwise_cons, List.forall_mem_cons, List.not_mem_nil,
    false_implies, implies_true, List.Pairwise.nil, and_true]
  rintro _ _ r r' ⟨u, _, rfl, hu, rfl⟩ ⟨v, _, rfl, hv, rfl⟩ he hr -
  rw [List.append_nil, List.append_nil] at he
  rcases is_primary_iff.mp hu with ⟨x, t, rfl, -⟩ | ⟨x, t, rfl, -⟩ | ⟨a, t, rfl, ha, ht⟩
  · exact false_of_first hv rfl he (by decide)
  · exact false_of_first hv rfl he (by decide)
  · rw [List.append_assoc] at he
    have ht : Heads (selections.first ++ follow .plain unsigned) (t ++ r) :=
      ((firstTable.heads_of_is ht).mono (List.subset_append_left ..)).append fun _ =>
        hr.stands.2.mono (List.subset_append_right ..)
    exact not_cast_of_atom ha hv he (ht.avoids (by decide))

theorem apart_primary : primary.alternatives.Pairwise
    fun a a' => grammar.Apart (fun _ r => Ends .plain primary r) a.symbols a'.symbols := by
  simp only [alternatives, primaryAlternatives, List.pairwise_cons, List.forall_mem_cons,
    List.not_mem_nil, false_implies, implies_true, List.Pairwise.nil, and_true]
  refine ⟨⟨apart_of_differLater (by decide), ?_⟩, ?_⟩
  · rintro _ _ r r' ⟨x, _, rfl, t, _, rfl, ht, rfl⟩ ⟨v, _, rfl, hv, k, _, rfl, -, rfl⟩ he hr -
    obtain ⟨o, r, rfl, ho, hend⟩ := hr.rests tails rfl
    have hto := is_placeTail (is_operandTail ht (is_operatorTail_iff.mpr ho))
    refine not_literal_of_placeTail hto hend hv (s := k ++ r') (x := x) ?_
    simpa using he
  · rintro _ _ r r' ⟨x, _, rfl, a, _, rfl, ha, k, _, rfl, -, rfl⟩
      ⟨v, _, rfl, hv, k', _, rfl, -, rfl⟩ he - -
    refine not_literal_of_arguments ha hv (x := x) (r := k ++ r) (s := k' ++ r') ?_
    simpa using he

theorem apart_typeArguments : (opt typeArguments).alternatives.Pairwise
    fun a a' =>
      grammar.Apart (fun _ r => Ends .tested (opt typeArguments) r) a.symbols a'.symbols := by
  simp only [alternatives, List.pairwise_cons, List.forall_mem_cons, List.not_mem_nil,
    false_implies, implies_true, List.Pairwise.nil, and_true]
  rintro _ _ r r' ⟨u, _, rfl, hu, rfl⟩ rfl he hr hr'
  obtain ⟨x, _, rfl, a, _, rfl, ha, l, _, rfl, hl, y, rfl⟩ := is_typeArguments_iff.mp hu
  have hc : Avoids operandFirst r := hr.stands.2.avoids (by decide)
  obtain ⟨_, r₀, rfl, ⟨m, _, rfl, hm, d, o, rfl, hd, ho⟩, hend⟩ := hr'.rests _ rfl
  have he₁ : m ++ (d ++ (o ++ r₀)) =
      ⟨.mark .less, x⟩ :: (a ++ (l ++ ⟨.mark .greater, y⟩ :: r)) := by simpa using he.symm
  rcases is_many_iff.mp hm with ⟨p, m, rfl, hp, -⟩ | rfl
  · obtain ⟨z, p, rfl, -⟩ := is_after_iff.mp hp
    simp at he₁
  · rcases is_dimensions_iff.mp hd with ⟨z, _, rfl, -⟩ | rfl
    · simp at he₁
    · rw [List.nil_append, List.nil_append] at he₁
      obtain ⟨o, rfl, he₂⟩ := exists_tail he₁ hend.1 (by decide)
      exact not_expression_of_angles
        (is_expression_of_conditional (conditional_of_tails (by simp) ho)) hend ha hl he₂ hc

/-- What is left tells the alternatives apart, except those of block statements. -/
theorem apart_ends {c : Context} {n : Nonterminal} (hn : n ≠ blockStatement) :
    n.alternatives.Pairwise
      fun a a' => grammar.Apart (fun _ r => Ends c n r) a.symbols a'.symbols := by
  by_cases h : (c, n) ∈ clashes
  · simp only [clashes, List.mem_cons, List.not_mem_nil, or_false, Prod.mk.injEq] at h
    rcases h with ⟨-, rfl⟩ | ⟨rfl, rfl⟩ | ⟨rfl, rfl⟩ | ⟨rfl, rfl⟩ | ⟨rfl, rfl⟩ | ⟨rfl, rfl⟩
    · exact absurd rfl hn
    · exact apart_expression
    · exact apart_unsigned
    · exact apart_primary
    · exact apart_typeArguments
    · exact apart_names fun _ _ h => h.dotless rfl (by decide)
  · exact pairwise_apart h fun _ _ h => h.stands

theorem apart_blockStatement {c : Context} : blockStatement.alternatives.Pairwise
    fun a a' => grammar.Apart (Admits c blockStatement) a.symbols a'.symbols := by
  simp only [alternatives, blockStatementAlternatives, List.pairwise_cons, List.forall_mem_cons,
    List.not_mem_nil, false_implies, implies_true, List.Pairwise.nil, and_true]
  rintro _ _ r r' ⟨d, _, rfl, hd, z, _, rfl, rfl⟩ ⟨k, _, rfl, hk, rfl⟩ he hr -
  have hb := beginsAngles hd hk (z := z) (s := r) (r := r') (by simpa using he)
  exact hr.starts rfl (by simpa using hb)

theorem apart_admits (c : Context) (n : Nonterminal) : n.alternatives.Pairwise
    fun a a' => grammar.Apart (Admits c n) a.symbols a'.symbols := by
  by_cases hn : n = blockStatement
  · exact hn ▸ apart_blockStatement
  · exact (apart_ends hn).imp fun h => h.mono fun _ _ h => h.toEnds

theorem method_unique {w : List Lexeme} {m m' : MethodDeclaration} (h : method.Derives w m)
    (h' : method.Derives w m') (hw : AngleFree w) : m = m' := by
  have ha : Admits .plain method (w ++ []) [] := by
    refine ⟨⟨⟨by decide, by simp⟩, .of_plain, ?_⟩, by rwa [List.append_nil], ?_⟩
    · intro ss hss
      cases hss
    · intro h
      cases h
  exact (Grammar.settled each_admits apart_admits h .plain w m' [] [] h' rfl ha ha).2

end Nonterminal

end MemberAccess.Java
