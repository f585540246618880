import MemberAccess.Proofs.Java.Header
import MemberAccess.Proofs.Java.Phrase

/-!
# Methods that return an expression

An expression holds no mark with which statements begin or end. So it can be put into the one
statement of a body, and the text of the method is parsed with exactly this expression, however it
begins.
-/

namespace MemberAccess.Java

open Lexer

namespace Nonterminal

variable {t u w : List Lexeme}

abbrev blockMarks : List Terminal := .mark .leftBrace :: statementMarks

theorem AngleFree.append_of_avoids (hu : ∀ l ∈ u, l.terminal ∉ blockMarks) (h : AngleFree t) :
    AngleFree (u ++ t) := by
  intro v p s he hp
  rcases List.append_eq_append_iff.mp he with ⟨v', rfl, ht⟩ | ⟨v', rfl, ht⟩
  · exact h v' p s ht hp
  · cases v' with
    | nil => exact h [] p s ht.symm hp
    | cons q v' =>
      obtain ⟨rfl, -⟩ := List.cons.inj ht
      exact absurd hp (hu p (by simp))

theorem AngleFree.cons {p : Lexeme} (hp : ∀ l ∈ t.head?, l.terminal ≠ .identifier)
    (h : AngleFree t) : AngleFree (p :: t) := by
  intro u q s he hq
  cases u with
  | nil =>
    obtain ⟨rfl, rfl⟩ := List.cons.inj he
    rintro ⟨n, x, n', y, z, c, r, hn, -, rfl⟩
    obtain ⟨l, n, rfl, hl⟩ := firstTable.exists_cons_of_is hn rfl
    exact hp l rfl (List.mem_singleton.mp hl)
  | cons k u => exact h u q s (List.cons.inj he).2 hq

theorem angleFree_nil : AngleFree [] := by
  intro u p t he
  simp at he

/-- What is read inside of expressions. -/
def insideExpressions : List Nonterminal :=
  expressionParts ++ result :: (partsOfTypes ++ typeArgumentParts)

theorem avoids_of_expression {e : Expr} (h : expression.Derives w e) :
    ∀ l ∈ w, l.terminal ∉ blockMarks :=
  avoids_of_derives insideExpressions (by decide +kernel) h (by decide)

end Nonterminal

open Nonterminal

theorem readable_name {x : Text} (h : IsIdentifier x) : Readable (nameLexeme x) := by
  obtain ⟨hx, hk⟩ := isIdentifier_iff.mp h
  have := Lexer.ReadBefore.word (r := []) hx rfl
  rw [hk] at this
  exact ⟨[], this⟩

/-- A header and a body in which the expression `w` is returned. -/
def returning (header w : List Lexeme) : List Lexeme :=
  header ++ (markLexeme .leftBrace :: keywordLexeme .return_ ::
    (w ++ [markLexeme .semicolon, markLexeme .rightBrace]))

/-- The method with a body in which the expression is returned. -/
def MethodDeclaration.returning (m : MethodDeclaration) (e : Expr) : MethodDeclaration :=
  { m with body := some (.mk [.statement (.return_ (some e))]) }

variable {header w : List Lexeme} {m : MethodDeclaration} {e : Expr}

theorem angleFree_returning (hm : IsHeader header m) (he : expression.Derives w e) :
    AngleFree (returning header w) := by
  refine .append_of_avoids (avoids_of_header hm (by decide +kernel) (by decide)) (.cons (by simp) ?_)
  refine .append_of_avoids (u := [_]) (by simp) (.append_of_avoids (avoids_of_expression he) ?_)
  exact .cons (by simp) (.cons (by simp) angleFree_nil)

theorem derives_returning (hm : IsHeader header m) (he : expression.Derives w e) :
    method.Derives (returning header w) (m.returning e) := by
  simp only [IsHeader, Grammar.readsBy_node, Grammar.readsBy_take, Grammar.readsBy_last] at hm
  obtain ⟨u₁, ms, _, rfl, h₁, u₂, ts, _, rfl, h₂, u₃, t, _, rfl, h₃, x, u₄, rfl, ps, h₄, rfl⟩ := hm
  have hs : simpleStatement.Derives (keywordLexeme .return_ :: (w ++ [markLexeme .semicolon]))
      (.return_ (some e)) :=
    .intro (.tail _ (.tail _ (.head _))) (.skip (.node (derives_opt_some.mpr he) (.skip (.nil _))))
  have hc : (chain 0).Derives (keywordLexeme .return_ :: (w ++ [markLexeme .semicolon]))
      [.simple (.return_ (some e))] :=
    derives_chain.mpr (.inl ⟨_, _, [], [], (List.append_nil _).symm, hs,
      derives_chainEnd.mpr (.inl ⟨rfl, rfl⟩), rfl⟩)
  have hb : block.Derives (markLexeme .leftBrace :: ((keywordLexeme .return_ ::
      (w ++ [markLexeme .semicolon])) ++ ([] ++ [markLexeme .rightBrace])))
      (.mk [.statement (.return_ (some e))]) :=
    .intro (.head _) (.skip (by
      rw [← List.append_assoc]
      exact .node (.cons (.intro (.tail _ (.head _)) (.last hc rfl)) .nil) (.skip (.nil _))))
  have hbody : methodBody.Derives _ (some (.mk [.statement (.return_ (some e))])) :=
    .intro (.head _) (.last hb rfl)
  have := Derives.intro (n := method) (.head _)
    (.node h₁ (.node h₂ (.node h₃ (.take (x := x) (.node h₄ (.node (derives_opt_none.mpr rfl)
      (.last hbody rfl)))))))
  simpa [returning, MethodDeclaration.returning, ofHeader] using this

/-- A text that is spelled so is parsed as the method, if its lexemes can be read. -/
theorem parse_returning {source : Text} (hm : IsHeader header m) (he : expression.Derives w e)
    (hr : ∀ l ∈ header ++ w, Readable l)
    (hs : unescape source = spaced (returning header w)) :
    parse source = .ok (m.returning e) := by
  rw [List.forall_mem_append] at hr
  have hspelled : Spelled (spaced (returning header w)) (returning header w) := by
    refine spelled_spaced ?_
    simp only [returning, List.forall_mem_append, List.forall_mem_cons]
    exact ⟨hr.1, readable_mark _, readable_keyword _, hr.2, readable_mark _, readable_mark _,
      by simp⟩
  obtain ⟨tokens, hscan, ht⟩ := hspelled.exists_scans .start
  rw [← hs] at hscan
  have hd := derives_returning hm he
  obtain ⟨m', hm'⟩ := exists_parse hscan (ht ▸ hd)
  obtain ⟨tokens', hscan', hd'⟩ := derives_of_parse hm'
  obtain rfl : tokens' = tokens := congrArg Scan.tokens (hscan'.from_eq.symm.trans hscan.from_eq)
  rw [ht] at hd'
  rw [hm', method_unique hd' hd (angleFree_returning hm he)]

/-- The header of a method `f` without parameters and result. -/
def plainHeader : List Lexeme :=
  [keywordLexeme .void, nameLexeme "f", markLexeme .leftParenthesis, markLexeme .rightParenthesis]

def plainMethod : MethodDeclaration := ⟨[], [], .void, "f", [], [], none, none⟩

theorem isHeader_plainHeader : IsHeader plainHeader plainMethod :=
  .node (u := []) .nil (.node (u := []) (derives_opt_none.mpr rfl)
    (.node (u := [_]) (.intro (.tail _ (.head _)) (.skip (.nil _)))
      (.take (.last (.intro (.head _) (.skip (.skip (.nil _)))) rfl))))

theorem readable_of_mem_plainHeader : ∀ l ∈ plainHeader, Readable l := by
  simp only [plainHeader, List.forall_mem_cons]
  exact ⟨readable_keyword _, readable_name (by decide), readable_mark _, readable_mark _, by simp⟩

end MemberAccess.Java
