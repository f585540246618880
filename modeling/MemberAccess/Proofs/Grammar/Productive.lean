import MemberAccess.Proofs.Grammar.Induction

/-!
# Grammars in which everything derives something

If each nonterminal has an alternative with smaller nonterminals only, then lexemes derive from each
of them. Which lexemes derive depends on their terminals alone.
-/

namespace MemberAccess

variable {T N : Type}

namespace Grammar

variable {G : Grammar T N}

theorem exists_spans {ss : List (Symbol T N)} (h : ∀ n, .node n ∈ ss → ∃ w, G.Is n w) :
    ∃ w, G.Spans ss w := by
  induction ss with
  | nil => exact ⟨[], rfl⟩
  | cons s ss ih =>
    obtain ⟨w, hw⟩ := ih fun n hn => h n (List.mem_cons_of_mem _ hn)
    cases s with
    | skip t | take t => exact ⟨⟨t, []⟩ :: w, [], w, rfl, hw⟩
    | node n =>
      obtain ⟨u, hu⟩ := h n List.mem_cons_self
      exact ⟨u ++ w, u, w, rfl, hu, hw⟩

/-- Whether all nonterminals among the symbols have a rank below `k`. -/
def areBelow (rank : N → Nat) (k : Nat) (ss : List (Symbol T N)) : Bool :=
  ss.all fun
    | .node n => rank n < k
    | _ => true

theorem exists_is {rank : N → Nat}
    (h : ∀ n, (G.alternatives n).any fun a => areBelow rank (rank n) a.symbols) (n : N) :
    ∃ w, G.Is n w := by
  induction hk : rank n using Nat.strongRecOn generalizing n with
  | _ k ih =>
    obtain ⟨a, ha, hs⟩ := List.any_eq_true.mp (h n)
    obtain ⟨w, hw⟩ := G.exists_spans fun m (hm : .node m ∈ a.symbols) =>
      ih (rank m) (hk ▸ of_decide_eq_true (List.all_eq_true.mp hs _ hm)) m rfl
    exact ⟨w, is_iff.mpr ⟨a, ha, hw⟩⟩

theorem spans_retext {ss : List (Symbol T N)} {R : Type} {b : Builder G.Value ss R}
    {w w' : List (Lexeme T)} {r : R}
    (h : ReadsBy (fun n u _ => ∀ u', u'.map (·.terminal) = u.map (·.terminal) → G.Is n u') ss b w r)
    (hw : w'.map (·.terminal) = w.map (·.terminal)) : G.Spans ss w' := by
  induction ss generalizing w w' with
  | nil =>
    obtain ⟨rfl, -⟩ := h
    exact List.map_eq_nil_iff.mp hw
  | cons s ss ih =>
    cases s with
    | skip t | take t =>
      obtain ⟨x, v, rfl, h⟩ := h
      obtain ⟨⟨t', x'⟩, v', rfl, rfl, hv⟩ := List.map_eq_cons_iff.mp hw
      exact ⟨x', v', rfl, ih h hv⟩
    | node n =>
      obtain ⟨u, z, v, rfl, hu, h⟩ := h
      rw [List.map_append] at hw
      obtain ⟨u', v', rfl, hu', hv'⟩ := List.map_eq_append_iff.mp hw
      exact ⟨u', v', rfl, hu u' hu', ih h hv'⟩

/-- Lexemes with the same terminals derive from the same nonterminals. -/
theorem Is.retext {n : N} {w w' : List (Lexeme T)} (h : G.Is n w)
    (hw : w'.map (·.terminal) = w.map (·.terminal)) : G.Is n w' := by
  obtain ⟨v, h⟩ := h
  have := h.induct (P := fun n u _ => ∀ u', u'.map (·.terminal) = u.map (·.terminal) → G.Is n u')
    fun ha h u' hu' => is_iff.mpr ⟨_, ha, spans_retext h hu'⟩
  exact this w' hw

end Grammar

end MemberAccess
