import MemberAccess.Grammar.Recognition
import MemberAccess.Proofs.Grammar.Productive

/-!
# What the reader has read can be completed

If lexemes derive from each nonterminal, then tokens that the reader has not refused can be
completed. A refused token is the first one after which they cannot.
-/

namespace MemberAccess

variable {T N : Type}

namespace Grammar.Bounded

variable {G : Bounded T N} {R : Type} [DecidableEq T] [DecidableEq N]
variable {threads last : List (Thread G.toGrammar R)} {tokens : List (Token T)}

theorem exists_completion (hG : ∀ n, ∃ w, G.Is n w) (hne : threads ≠ [])
    (h : G.survivors threads tokens = .ok last) :
    ∃ thread ∈ threads, ∃ w r, thread.Yields (tokens.map (·.toLexeme) ++ w) r := by
  induction tokens generalizing threads with
  | nil =>
    obtain ⟨thread, more, rfl⟩ := List.exists_cons_of_ne_nil hne
    obtain ⟨w, hw⟩ := exists_spans fun n (_ : .node n ∈ thread.stack) => hG n
    obtain ⟨r, hr⟩ := hw.exists_reads thread.build
    exact ⟨thread, List.mem_cons_self, w, r, hr⟩
  | cons token rest ih =>
    rw [survivors] at h
    split at h
    · cases h
    · rename_i hn
      obtain ⟨next, hm, w, r, hy⟩ := ih hn h
      obtain ⟨thread, ht, hy⟩ := yields_of_mem_advance hm hy
      exact ⟨thread, ht, w, r, hy⟩

/-- Tokens of which none is refused can be completed. -/
theorem exists_is_of_survivors (hG : ∀ n, ∃ w, G.Is n w) {n : N}
    {last : List (Thread G.toGrammar (G.Value n))} (h : G.survivors (G.start n) tokens = .ok last) :
    ∃ w, G.Is n (tokens.map (·.toLexeme) ++ w) := by
  obtain ⟨thread, ht, w, r, hy⟩ := exists_completion hG (List.cons_ne_nil _ _) h
  exact ⟨w, r, yields_start_iff.mp ⟨thread, ht, hy⟩⟩

/-- The tokens before a refused one can be completed, but not with it. -/
theorem exists_of_refused (hG : ∀ n, ∃ w, G.Is n w) {n : N} (hn : G.proper n) {token : Token T}
    (h : G.survivors (G.start n) tokens = .error token) :
    ∃ before after, tokens = before ++ token :: after ∧
      (∃ w, G.Is n (before.map (·.toLexeme) ++ w)) ∧
      ∀ w, ¬ G.Is n (before.map (·.toLexeme) ++ token.toLexeme :: w) := by
  have hp : ∀ thread ∈ G.start n, G.IsProper thread.stack := by simp [start, IsProper, hn]
  obtain ⟨before, after, last, rfl, hl, hy⟩ := not_yields_of_survivors hp h
  refine ⟨before, after, rfl, exists_is_of_survivors hG hl, ?_⟩
  rintro w ⟨v, hv⟩
  obtain ⟨thread, ht, hv⟩ := yields_start_iff.mpr hv
  exact hy thread ht w v hv

end Grammar.Bounded

end MemberAccess
