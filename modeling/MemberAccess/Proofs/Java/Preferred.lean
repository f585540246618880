import MemberAccess.Proofs.Grammar.Preference
import MemberAccess.Proofs.Java.Links
import MemberAccess.Proofs.Java.Method

/-!
# The reading that a text is parsed with

Of the readings of its tokens, a text is parsed with the preferred one. A statement of a block is a
declaration there if its lexemes can be read as one at all.
-/

namespace MemberAccess.Java

namespace Nonterminal

/-- The value is the one that is preferred for the lexemes. -/
def Preferred (n : Nonterminal) (w : List Lexeme) (v : n.Value) : Prop := grammar.Preferred n w v

variable {n : Nonterminal} {w : List Lexeme}

theorem Preferred.derives {n : Nonterminal} {w : List Lexeme} {v : n.Value} (h : n.Preferred w v) :
    n.Derives w v :=
  Grammar.Preferred.derives (G := grammar.toGrammar) h

theorem Preferred.is {v : n.Value} (h : n.Preferred w v) : grammar.Is n w := h.derives.is

theorem Preferred.exists_alternative {v : n.Value} (h : n.Preferred w v) :
    ∃ before a after, n.alternatives = before ++ a :: after ∧
      (∀ b ∈ before, ¬ grammar.Spans b.symbols w) ∧
      Grammar.ReadsBy Preferred a.symbols a.build w v :=
  Grammar.Preferred.exists_alternative (G := grammar.toGrammar) h

theorem unfolds_preferred : Unfolds Preferred := by
  intro n w v h
  obtain ⟨before, a, after, ha, -, h⟩ := h.exists_alternative
  exact ⟨a, ha ▸ by simp, h⟩

/-- A statement of a block is a declaration if it can be read as one. -/
theorem Preferred.declaration {w : List Lexeme} {y : Text} {s : BlockStatement}
    (h : blockStatement.Preferred (w ++ [⟨.mark .semicolon, y⟩]) s) (hw : grammar.Is declaration w) :
    declaration.Preferred w s := by
  obtain ⟨before, a, after, ha, hn, h⟩ := h.exists_alternative
  cases before with
  | nil =>
    obtain ⟨rfl, -⟩ := List.cons.inj ha
    obtain ⟨u, d, _, he, hu, z, _, rfl, rfl, rfl⟩ := h
    exact List.append_inj_left' he rfl ▸ hu
  | cons b before =>
    obtain ⟨rfl, -⟩ := List.cons.inj ha
    exact absurd ⟨w, _, rfl, hw, y, [], rfl, rfl⟩ (hn _ List.mem_cons_self)

/-- The lexemes determine which value is preferred, whatever comes after them. -/
theorem Preferred.unique {v v' : n.Value} (hn : Ends .plain n []) (h : n.Preferred w v)
    (h' : n.Preferred w v') : v = v' := by
  obtain ⟨k, z, hz, hv⟩ := h
  obtain ⟨k', z', hz', hv'⟩ := h'
  have hnode : grammar.Each (fun m _ r => Ends .plain m r) [.node n] (w ++ []) [] := by
    rintro u y - - rfl
    exact ⟨hn, trivial⟩
  exact (Grammar.Prefers.eq (P := fun c m _ r => Ends c m r) each_ends delimited hv hv' hz hz' rfl
    hnode hnode).2

/-- The link with preferred values is determined by its lexemes. -/
theorem Covers.unique {link link' : Link} (h : Covers Preferred w link)
    (h' : Covers Preferred w link') (hk : link.kind = link'.kind) : link = link' := by
  match link, link', hk with
  | .ifHead c, .ifHead c', _ | .whileHead c, .whileHead c', _ =>
    obtain ⟨x, y, u, z, hu, rfl⟩ := h
    obtain ⟨x', y', u', z', hu', he⟩ := h'
    simp only [List.cons.injEq] at he
    obtain ⟨rfl, -, -⟩ := eq_of_condition hu.is hu'.is he.2.2
    rw [hu.unique (.of_endsExpression (endsExpression_of_heads (heads_nil _))) hu']
  | .simple s, .simple s', _ =>
    exact congrArg _ (Preferred.unique (.of_heads (by decide) rfl (heads_nil _)) h h')
  | .elseWord, .elseWord, _ => rfl

theorem Linked.unique {links links' : Chain} (h : Linked Preferred w links)
    (h' : Linked Preferred w links') : links = links' := by
  induction links generalizing w links' with
  | nil => exact ((h'.mono Preferred.derives).eq_nil_iff.mp h).symm
  | cons link links ih =>
    cases links' with
    | nil => exact (h.mono Preferred.derives).eq_nil_iff.mp h'
    | cons link' links' =>
      obtain ⟨u, t, rfl, hu, ht⟩ := h
      obtain ⟨u', t', he, hu', ht'⟩ := h'
      obtain ⟨hk, rfl, rfl⟩ := (hu.mono Preferred.derives).eq (hu'.mono Preferred.derives) he
        (by simpa using (ht.mono Preferred.derives).heads (heads_nil _))
        (by simpa using (ht'.mono Preferred.derives).heads (heads_nil _))
      obtain rfl := ih ht ht'
      rw [hu.unique hu' hk]

end Nonterminal

/-- The method that a text is parsed as is the preferred one. -/
theorem preferred_of_parse {source : Text} {m : MethodDeclaration} (h : parse source = .ok m) :
    ∃ tokens, Scans .start (unescape source) tokens [] ∧
      Nonterminal.method.Preferred (tokens.map (·.toLexeme)) m := by
  obtain ⟨tokens, threads, hs, ht, hm⟩ := survivors_of_parse h
  exact ⟨tokens, hs, Grammar.Bounded.preferred_of_survivors (G := grammar) rfl ht hm⟩

theorem exists_body_of_parse {source : Text} {p : Block → Bool}
    (h : ((parse source).toOption.bind (·.body)).any p) :
    ∃ m b, parse source = .ok m ∧ m.body = some b ∧ p b := by
  cases hm : parse source with
  | error e =>
    rw [hm] at h
    cases h
  | ok m =>
    rw [hm] at h
    replace h : m.body.any p := h
    cases hb : m.body with
    | none =>
      rw [hb] at h
      cases h
    | some b => exact ⟨m, b, rfl, hb, by simpa [hb] using h⟩

end MemberAccess.Java
