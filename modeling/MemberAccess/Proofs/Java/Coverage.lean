import Mathlib.Data.List.Basic
import MemberAccess.Proofs.Grammar.Coverage
import MemberAccess.Proofs.Java.Unambiguous

/-!
# Each part of a method covers the same lexemes

A declaration can be a comparison too, and which `if` has an `else` is not settled by the links of
a statement. But whatever is read at a place of a method, it is read from the same lexemes.
-/

namespace MemberAccess.Java

namespace Nonterminal

variable {c : Context} {n : Nonterminal} {u u' r r' : List Lexeme}

theorem alike_blockStatement : blockStatement.alternatives.Pairwise
    fun a a' => grammar.Alike (fun _ r => Ends c blockStatement r) a.symbols a'.symbols := by
  simp only [alternatives, blockStatementAlternatives, List.pairwise_cons, List.forall_mem_cons,
    List.not_mem_nil, false_implies, implies_true, List.Pairwise.nil, and_true]
  rintro _ _ r r' ⟨d, _, rfl, hd, z, _, rfl, rfl⟩ ⟨k, _, rfl, hk, rfl⟩ he - -
  have hk := (isAngles_of_declaration hd hk (z := z) (s := r) (r := r') (by simpa using he)).2
  rw [hk, List.append_nil]

theorem alike_ends (c : Context) (n : Nonterminal) : n.alternatives.Pairwise
    fun a a' => grammar.Alike (fun _ r => Ends c n r) a.symbols a'.symbols := by
  by_cases hn : n = blockStatement
  · exact hn ▸ alike_blockStatement
  · exact (apart_ends hn).imp fun h => h.alike

theorem delimited (hu : grammar.Is n u) (c : Context) :
    grammar.Delimited (fun _ r => Ends c n r) n u :=
  Grammar.delimited (P := fun c n _ r => Ends c n r) each_ends alike_ends hu c

/-- What is read as a nonterminal at a place of a method is determined by the stream. -/
theorem eq_of_ends (hu : grammar.Is n u) (hu' : grammar.Is n u') (he : u ++ r = u' ++ r')
    (hr : Ends c n r) (hr' : Ends c n r') : u = u' ∧ r = r' := by
  have h := delimited hu c u' r r' hu' he hr hr'
  exact ⟨h, List.append_cancel_left (h ▸ he)⟩

theorem eq_of_parts {a : Alternative Terminal Value n} {xs ys : List (Symbol Terminal Nonterminal)}
    {v v' : List Lexeme} (ha : a ∈ n.alternatives) (hs : a.symbols = xs ++ ys)
    (hu : grammar.Spans xs u) (hv : grammar.Spans ys v) (hu' : grammar.Spans xs u')
    (hv' : grammar.Spans ys v') (he : u ++ (v ++ r) = u' ++ (v' ++ r')) (hr : Ends c n r)
    (hr' : Ends c n r') : u = u' :=
  Grammar.eq_of_spans_append (P := fun m _ r => Ends (inside c n m) m r)
    (fun _ _ h => delimited h _) hu hv hu' hv' he (hs ▸ each_ends ha hr) (hs ▸ each_ends ha hr')

/-- What ends a nonterminal with which no expression ends. -/
theorem Ends.of_heads (hn : occurs .plain n) (hr : restOf .plain n = none)
    (h : Heads (follow .plain n) r) : Ends .plain n r := by
  refine ⟨⟨hn, h⟩, .of_plain, fun ss hss => ?_⟩
  rw [hr] at hss
  cases hss

theorem Ends.of_endsExpression (h : EndsExpression r) : Ends .plain expression r :=
  ⟨⟨by decide, h.1⟩, .of_plain, fun _ hss => Option.some.inj hss ▸ leaves_nil.mpr h⟩

/-- The last nonterminal of an alternative covers the same lexemes in any two readings. -/
theorem eq_of_last {m : Nonterminal} {a : Alternative Terminal Value n} {v v' : List Lexeme}
    (ha : a ∈ n.alternatives) (hm : a.symbols.getLast? = some (.node m)) (hn : occurs .plain n)
    (hr : restOf .plain n = none) (hu : grammar.Spans a.symbols.dropLast u) (hv : grammar.Is m v)
    (hu' : grammar.Spans a.symbols.dropLast u') (hv' : grammar.Is m v') (he : u ++ v = u' ++ v') :
    v = v' := by
  have hends : Ends .plain n [] := .of_heads hn hr (by simp)
  have he' : u ++ (v ++ []) = u' ++ (v' ++ []) := by simpa using he
  obtain rfl := eq_of_parts ha (List.dropLast_append_getLast? _ hm).symm hu
    (Grammar.spans_singleton.mpr hv) hu' (Grammar.spans_singleton.mpr hv') he' hends hends
  exact List.append_cancel_left he

theorem eq_of_first {w w' z : List Lexeme} (hu : grammar.Is n u)
    (hw : grammar.Is (many n) w) (hu' : grammar.Is n u') (hw' : grammar.Is (many n) w')
    (he : u ++ w = u' ++ w') (hz : Ends .plain (many n) z) : u = u' := by
  have he' : u ++ (w ++ z) = u' ++ (w' ++ z) := by
    rw [← List.append_assoc, he, List.append_assoc]
  exact eq_of_parts (n := many n) (.head _) rfl (Grammar.spans_singleton.mpr hu)
    (Grammar.spans_singleton.mpr hw) (Grammar.spans_singleton.mpr hu')
    (Grammar.spans_singleton.mpr hw') he' hz hz

end Nonterminal

end MemberAccess.Java
