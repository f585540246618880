import Mathlib.Data.List.Forall2
import MemberAccess.Proofs.Java.Follow
import MemberAccess.Proofs.Java.Padding
import MemberAccess.Proofs.Text.Join

/-!
# Texts that stand for parts of methods

Texts without comments are read alike wherever a separator follows. If backslashes stand in pairs,
escapes do not get in the way, and neither does indentation if line boundaries stand outside of
literals.
-/

namespace MemberAccess.Java

open Lexer

variable {i : Bool} {x t : Text} {w w' : List Lexeme}

/-- A lexeme that is left alone wherever it is written, and by indentation if `i` holds. -/
structure Clean (i : Bool) (l : Lexeme) : Prop where
  ne_slash : l.terminal ≠ .mark .slash
  balanced : Balanced l.text
  boundless : i = true → ∀ c ∈ l.text, c.isLineBoundary = false

def AllClean (i : Bool) (w : List Lexeme) : Prop := ∀ l ∈ w, Clean i l

/-- The text is the lexemes with spaces around them, and they are left alone. -/
structure Worded (i : Bool) (x : Text) (w : List Lexeme) : Prop where
  spelled : Spelled x w
  clean : AllClean i w

namespace Worded

theorem nil : Worded i [] [] := ⟨.nil, fun _ hl => by cases hl⟩

theorem lexeme {k : Terminal} (hx : ReadBefore t k x) (hc : Clean i ⟨k, x⟩) (h : Worded i t w) :
    Worded i (x ++ t) (⟨k, x⟩ :: w) :=
  ⟨.lexeme hx h.spelled, List.forall_mem_cons.mpr ⟨hc, h.clean⟩⟩

theorem space {c : CodePoint} (hc : isSpace c = true) (h : Worded i t w) : Worded i (c :: t) w :=
  ⟨.space hc h.spelled, h.clean⟩

theorem slashless (h : Worded i x w) : Slashless w := fun l hl => (h.clean l hl).ne_slash

/-- What begins with a separator can come after any text. -/
theorem append {c : CodePoint} (h : Worded i x w) (hc : c ∈ separators) (ht : Worded i (c :: t) w') :
    Worded i (x ++ c :: t) (w ++ w') :=
  ⟨h.spelled.append h.slashless hc ht.spelled, List.forall_mem_append.mpr ⟨h.clean, ht.clean⟩⟩

theorem balanced (h : Worded i x w) : Balanced x := by
  obtain ⟨hs, hc⟩ := h
  induction hs with
  | nil => exact .nil
  | @space c _ _ hc' _ ih =>
    have hs : ∀ d ∈ separators, d ≠ '\\' := by decide
    exact .plain (hs c (mem_separators_of_isSpace hc')) (ih hc)
  | lexeme _ _ ih =>
    rw [AllClean, List.forall_mem_cons] at hc
    exact hc.1.balanced.append (ih hc.2)

end Worded

theorem ne_backslash_of_isWord (h : IsWord x) : ∀ c ∈ x, c ≠ '\\' := by
  rintro c hc rfl
  exact absurd (List.all_eq_true.mp h.2 _ hc) (by decide)

theorem clean_word (h : IsWord x) : Clean i ⟨wordTerminal x, x⟩ := by
  have hk : wordTerminal x ∉ [.mark .slash, .character, .string] := by
    unfold wordTerminal
    split <;> simp
  simp only [List.mem_cons, not_or] at hk
  have hread : ReadBefore [] (wordTerminal x) x := .word h rfl
  exact ⟨hk.1, .of_forall_ne (ne_backslash_of_isWord h),
    fun _ => isLineBoundary_of_readBefore hread (by simpa using hk.2)⟩

theorem clean_mark {m : Mark} (hm : m ≠ .slash) : Clean i ⟨.mark m, m.text⟩ := by
  have ht : ∀ m ∈ Mark.longestFirst, ∀ c ∈ m.text, c.isLineBoundary = false ∧ c ≠ '\\' := by decide
  have ht := ht m (Mark.mem_longestFirst m)
  exact ⟨fun he => hm (Terminal.mark.inj he), .of_forall_ne fun c hc => (ht c hc).2,
    fun _ c hc => (ht c hc).1⟩

/-- The text is one identifier. -/
def IsIdentifier (x : Text) : Prop := lexeme? x = some (.token .identifier, x.length)

instance (x : Text) : Decidable (IsIdentifier x) := inferInstanceAs (Decidable (_ = _))

theorem isIdentifier_iff : IsIdentifier x ↔ IsWord x ∧ wordTerminal x = .identifier := by
  have h : IsIdentifier x ↔ ReadBefore [] .identifier x := by
    rw [← lexeme?_eq_some_iff, List.append_nil, IsIdentifier]
  have hword : ∀ k, ReadBefore [] k x → k = .identifier → IsWord x ∧ wordTerminal x = k := by
    intro k h hk
    cases h with
    | word hx _ => exact ⟨hx, rfl⟩
    | _ => cases hk
  rw [h]
  constructor
  · exact fun h => hword _ h rfl
  · rintro ⟨hx, hk⟩
    exact hk ▸ .word hx rfl

theorem beginsWith_separator {c : CodePoint} (hc : c ∈ separators) :
    Text.beginsWith isIdentifierPart (c :: t) = false := by
  have hp : ∀ d ∈ separators, isIdentifierPart d = false := by decide +kernel
  exact hp c hc

abbrev markLexeme (m : Mark) : Lexeme := ⟨.mark m, m.text⟩

abbrev keywordLexeme (k : Keyword) : Lexeme := ⟨.keyword k, k.text⟩

abbrev nameLexeme (x : Text) : Lexeme := ⟨.identifier, x⟩

namespace Worded

theorem word (hx : IsWord x) (ht : Text.beginsWith isIdentifierPart t = false) (h : Worded i t w) :
    Worded i (x ++ t) (⟨wordTerminal x, x⟩ :: w) :=
  .lexeme (.word hx ht) (clean_word hx) h

theorem name (hx : IsIdentifier x) (ht : Text.beginsWith isIdentifierPart t = false)
    (h : Worded i t w) : Worded i (x ++ t) (nameLexeme x :: w) := by
  obtain ⟨hw, hk⟩ := isIdentifier_iff.mp hx
  have := word hw ht h
  rwa [hk] at this

theorem keyword (k : Keyword) (ht : Text.beginsWith isIdentifierPart t = false)
    (h : Worded i t w) : Worded i (k.text ++ t) (keywordLexeme k :: w) := by
  have := word (isWord_keyword k) ht h
  rwa [wordTerminal_keyword] at this

/-- The marks that end with a separator are read before anything. -/
theorem mark {m : Mark} (hm : m ∈ [.leftParenthesis, .rightParenthesis, .comma, .semicolon])
    (h : Worded i t w) : Worded i (m.text ++ t) (markLexeme m :: w) := by
  have hs : m ≠ .slash := by
    rintro rfl
    simp at hm
  exact .lexeme (.mark (markBefore_of_mem hm t)) (clean_mark hs) h

end Worded

/-- The text is read as the lexemes and holds neither comments nor escapes. -/
structure ReadsAs (x : Text) (w : List Lexeme) : Prop where
  noSlash : CodePoint.ofChar '/' ∉ x
  noBackslash : CodePoint.ofChar '\\' ∉ x
  unread : (scan x).unread = []
  tokens : (scan x).tokens.map (·.toLexeme) = w

theorem Spelled.forall_mem (h : Spelled x w) :
    ∀ l ∈ w, l.text ⊆ x ∧ ∃ r, ReadBefore r l.terminal l.text := by
  induction h with
  | nil => simp
  | space _ _ ih => exact fun l hl => ⟨List.subset_cons_of_subset _ (ih l hl).1, (ih l hl).2⟩
  | lexeme hk _ ih =>
    rw [List.forall_mem_cons]
    exact ⟨⟨List.subset_append_left .., _, hk⟩,
      fun l hl => ⟨List.subset_append_of_subset_right _ (ih l hl).1, (ih l hl).2⟩⟩

/-- A text without quoted literals is left alone. -/
theorem ReadsAs.worded (h : ReadsAs x w) (hq : ∀ l ∈ w, l.terminal ∉ [.character, .string]) :
    Worded i x w := by
  have hs := scans_scan x
  rw [h.unread] at hs
  have hs : Spelled x w := h.tokens ▸ hs.spelled h.noSlash
  refine ⟨hs, fun l hl => ?_⟩
  obtain ⟨hsub, r, hr⟩ := hs.forall_mem l hl
  exact ⟨hs.slashless h.noSlash l hl,
    .of_forall_ne fun c hc he => h.noBackslash (he ▸ hsub hc),
    fun _ => isLineBoundary_of_readBefore hr (hq l hl)⟩

/-- The lexemes of a list with a comma before each element but the first. -/
def listed : List (List Lexeme) → List Lexeme
  | [] => []
  | u :: us => u ++ us.flatMap (markLexeme .comma :: ·)

namespace Worded

theorem flatMap_comma {xs : List Text} {us : List (List Lexeme)} (h : List.Forall₂ (Worded i) xs us)
    {c : CodePoint} (hc : c ∈ separators) (ht : Worded i (c :: t) w) :
    Worded i (xs.flatMap (Text.ofString ", " ++ ·) ++ c :: t)
      (us.flatMap (markLexeme .comma :: ·) ++ w) := by
  induction h with
  | nil => exact ht
  | @cons x u xs us hx _ ih =>
    have hcomma : CodePoint.ofChar ',' ∈ separators := by decide
    have hrest : Worded i (x ++ (xs.flatMap (Text.ofString ", " ++ ·) ++ c :: t))
        (u ++ (us.flatMap (markLexeme .comma :: ·) ++ w)) := by
      cases xs with
      | nil => exact hx.append hc ih
      | cons y xs => exact hx.append hcomma ih
    rw [List.flatMap_cons, List.flatMap_cons, List.append_assoc, List.append_assoc,
      List.append_assoc, List.cons_append]
    exact .mark (m := .comma) (by decide) (.space (by decide) hrest)

theorem parenthesized {xs : List Text} {us : List (List Lexeme)} (h : List.Forall₂ (Worded i) xs us)
    (ht : Worded i t w) :
    Worded i ("(" ++ Text.join ", " xs ++ ")" ++ t)
      (markLexeme .leftParenthesis :: (listed us ++ markLexeme .rightParenthesis :: w)) := by
  have hclose : Worded i (CodePoint.ofChar ')' :: t) (markLexeme .rightParenthesis :: w) :=
    .mark (m := .rightParenthesis) (by decide) ht
  have hlist : Worded i (Text.join ", " xs ++ CodePoint.ofChar ')' :: t)
      (listed us ++ markLexeme .rightParenthesis :: w) := by
    cases h with
    | nil => exact hclose
    | @cons x u xs us hx hxs =>
      have hcomma : CodePoint.ofChar ',' ∈ separators := by decide
      have hparen : CodePoint.ofChar ')' ∈ separators := by decide
      have hrest := flatMap_comma hxs hparen hclose
      rw [Text.join_cons, listed, List.append_assoc, List.append_assoc]
      cases xs with
      | nil => exact hx.append hparen hrest
      | cons y xs => exact hx.append hcomma hrest
  have := mark (m := .leftParenthesis) (by decide) hlist
  simpa [markLexeme, Mark.text, Text.ofString] using this

end Worded

namespace Nonterminal

theorem derives_separated {n : Nonterminal} {us : List (List Lexeme)} {vs : List n.Value} (m : Mark)
    (h : List.Forall₂ n.Derives us vs) :
    (many (after (.mark m) n)).Derives (us.flatMap (markLexeme m :: ·)) vs := by
  induction h with
  | nil => exact .nil
  | cons hu _ ih => exact .cons (derives_after.mpr ⟨_, _, rfl, hu⟩) ih

theorem derives_formalParameters {us : List (List Lexeme)} {fs : List FormalParameter}
    (h : List.Forall₂ formalParameter.Derives us fs) :
    formalParameters.Derives
      (markLexeme .leftParenthesis :: (listed us ++ [markLexeme .rightParenthesis])) fs := by
  cases h with
  | nil => exact .intro (.head _) (.skip (.skip (.nil _)))
  | cons hu hus =>
    rw [listed, List.append_assoc]
    exact .intro (.tail _ (.head _))
      (.skip (.node hu (.node (derives_separated .comma hus) (.skip (.nil _)))))

theorem derives_modifiers (ks : List ModifierKeyword) :
    (many modifier).Derives (ks.map fun k => keywordLexeme (.modifier k)) (ks.map .keyword) := by
  induction ks with
  | nil => exact .nil
  | cons k ks ih =>
    refine .cons (u := [keywordLexeme (.modifier k)]) ?_ ih
    exact .intro (List.mem_append_left _ (List.mem_map.mpr ⟨k, ModifierKeyword.mem_all k, rfl⟩))
      (.skip (.nil _))

/-- Whether nothing is read as the symbol but nonterminals `ns` and terminals other than `ks`. -/
def isWithin (ns : List Nonterminal) (ks : List Terminal) : Symbol Terminal Nonterminal → Bool
  | .node n => n ∈ ns
  | .skip t | .take t => t ∉ ks

/-- Nonterminals that are made of each other and of other terminals than `ks` hold none of `ks`. -/
theorem avoids_of_derives (ns : List Nonterminal) {ks : List Terminal}
    (htable : ∀ n ∈ ns, ∀ a ∈ n.alternatives, a.symbols.all (isWithin ns ks))
    {n : Nonterminal} {v : n.Value} (h : n.Derives w v) (hn : n ∈ ns) :
    ∀ l ∈ w, l.terminal ∉ ks := by
  refine Derives.induct (P := fun n w _ => n ∈ ns → ∀ l ∈ w, l.terminal ∉ ks) ?_ h hn
  intro n a w v ha h hn
  have hall := htable n hn a ha
  clear htable hn ha
  obtain ⟨symbols, build⟩ := a
  induction symbols generalizing w with
  | nil =>
    obtain ⟨rfl, -⟩ := h
    simp
  | cons s symbols ih =>
    rw [List.all_cons, Bool.and_eq_true] at hall
    cases s with
    | skip k | take k =>
      obtain ⟨x, w, rfl, h⟩ := h
      exact List.forall_mem_cons.mpr ⟨of_decide_eq_true hall.1, ih _ h hall.2⟩
    | node m =>
      obtain ⟨u, v, w, rfl, hu, h⟩ := h
      exact List.forall_mem_append.mpr ⟨hu (of_decide_eq_true hall.1), ih _ h hall.2⟩

/-- Quoted literals and the ends of statements, which no type holds. -/
abbrev outsideTypes : List Terminal := [.character, .string, .mark .semicolon]

theorem avoids_of_type {n : Nonterminal} {v : n.Value} (h : n.Derives w v)
    (hn : n ∈ partsOfTypes ++ typeArgumentParts) : ∀ l ∈ w, l.terminal ∉ outsideTypes :=
  avoids_of_derives (partsOfTypes ++ typeArgumentParts) (by decide +kernel) h hn

/-- Types hold no quoted literals. -/
theorem unquoted_of_derives {n : Nonterminal} {v : n.Value} (h : n.Derives w v)
    (hn : n ∈ partsOfTypes ++ typeArgumentParts) :
    ∀ l ∈ w, l.terminal ∉ [.character, .string] :=
  fun l hl hm => avoids_of_type h hn l hl (List.mem_append_left [Terminal.mark .semicolon] hm)

end Nonterminal

end MemberAccess.Java
