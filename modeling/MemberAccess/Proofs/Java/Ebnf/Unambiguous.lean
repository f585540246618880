import MemberAccess.Proofs.Java.Ebnf.Completeness
import MemberAccess.Proofs.Java.Ebnf.Soundness
import MemberAccess.Proofs.Java.Method
import MemberAccess.Proofs.Java.Unambiguous

/-!
# The written grammar is unambiguous

Two trees over the same lexemes stand for the same method, but for two spots: an `else` can belong
to more than one `if`, and a statement like `a < b > c;` is a comparison and a declaration.
-/

namespace MemberAccess.Java.Ebnf

/-- No block statement is two names in angle brackets with a name after them. A block statement
comes after a brace or a semicolon. -/
def NoAngleStatement (w : List Lexeme) : Prop :=
  ∀ (before after q q' : List Lexeme) (p : Lexeme) (x y n z : Text),
    w = before ++ p :: (q ++ ⟨.mark .less, x⟩ :: (q' ++ ⟨.mark .greater, y⟩ ::
      ⟨.identifier, n⟩ :: ⟨.mark .semicolon, z⟩ :: after)) →
    (∃ t, Derives .qualifiedName q t) → (∃ t, Derives .qualifiedName q' t) →
    p.terminal ∉ [Terminal.mark .leftBrace, .mark .semicolon, .mark .rightBrace]

theorem exists_qualifiedName {q : List Lexeme} (h : grammar.Is .name q) :
    ∃ t, Derives .qualifiedName q t := by
  obtain ⟨v, hv⟩ := h
  obtain ⟨t, ht, -⟩ : Rule.qualifiedName.Image q (.text v) :=
    isWritten_of_derives (n := Nonterminal.name) hv
  exact ⟨t, ht⟩

theorem NoAngleStatement.angleFree {w : List Lexeme} (h : NoAngleStatement w) :
    Nonterminal.AngleFree w := by
  rintro before p _ he hp ⟨q, x, q', y, n, z, after, hq, hq', rfl⟩
  exact h before after q q' p x y n z he (exists_qualifiedName hq) (exists_qualifiedName hq') hp

/-- All trees of a method stand for one method, if each branch of an `if` is in braces and no block
statement can be both a comparison and a declaration. -/
theorem Derives.value_eq {w : List Lexeme} {t t' : Tree} (h : Derives .start w t)
    (h' : Derives .start w t') (hb : Braced w) (ha : NoAngleStatement w) :
    ∃ m, t.value = some (.method m) ∧ t'.value = some (.method m) := by
  obtain ⟨m, m₁, hm, hd, he⟩ := h.exists_method
  obtain ⟨m', m₁', hm', hd', he'⟩ := h'.exists_method
  obtain rfl := he hb
  obtain rfl := he' hb
  obtain rfl := Nonterminal.method_unique hd hd' ha.angleFree
  exact ⟨m₁, hm, hm'⟩

theorem mem_zip_tail {w u v : List Lexeme} {k l : Lexeme} (h : w = u ++ k :: l :: v) :
    (k, l) ∈ w.zip w.tail := by
  subst h
  induction u with
  | nil => simp
  | cons x u ih =>
    cases u with
    | nil => simp
    | cons y u => exact List.mem_cons_of_mem _ ih

def comparison : Text := "void m() \x7b if (a instanceof B<C>) \x7b x = y < z; \x7d \x7d"

theorem value_eq_comparison :
    ∃ tokens t m, Scans .start comparison tokens [] ∧ Derives .start (tokens.map (·.toLexeme)) t ∧
      Braced (tokens.map (·.toLexeme)) ∧ NoAngleStatement (tokens.map (·.toLexeme)) ∧
      t.value = some (.method m) ∧
      ∀ t', Derives .start (tokens.map (·.toLexeme)) t' → t'.value = some (.method m) := by
  have hu : (scan comparison).unread = [] := by decide +kernel
  have hs := scans_scan comparison
  rw [hu] at hs
  have hm : (methodOfScan comparison (scan comparison)).toOption.isSome = true := by decide +kernel
  obtain ⟨m, hm⟩ := exists_ok_of_isSome hm
  obtain ⟨t, ht, hv⟩ := exists_tree_of_derives (derives_of_methodOfScan hm).2
  generalize hw : (scan comparison).tokens.map (·.toLexeme) = w at ht
  have hb : Braced w := by
    have hp : ∀ p ∈ w.zip w.tail, p.1.terminal = .mark .rightParenthesis →
        p.2.terminal = .mark .leftBrace := by
      rw [← hw]
      decide +kernel
    intro before c after x y z l he _
    exact hp _ (mem_zip_tail (u := before ++ ⟨_, x⟩ :: ⟨_, y⟩ :: c) (by simpa using he)) rfl
  have ha : NoAngleStatement w := by
    have hp : ∀ p ∈ w.zip w.tail, p.1.terminal = .mark .greater →
        p.2.terminal ≠ .identifier := by
      rw [← hw]
      decide +kernel
    intro before after q q' p x y n z he _ _ _
    exact hp _ (mem_zip_tail (u := before ++ p :: (q ++ ⟨_, x⟩ :: q')) (by simpa using he)) rfl rfl
  subst hw
  refine ⟨_, t, m, hs, ht, hb, ha, hv, fun t' ht' => ?_⟩
  obtain ⟨m', hm', hv'⟩ := ht.value_eq ht' hb ha
  rwa [← hm', hv] at hv'

end MemberAccess.Java.Ebnf
