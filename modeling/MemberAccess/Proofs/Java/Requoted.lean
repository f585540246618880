import MemberAccess.Proofs.Java.Alike
import MemberAccess.Proofs.Java.Lexeme.Literal
import MemberAccess.Proofs.Java.Phrase.Expression

/-!
# Texts with other string literals

A text in which empty string literals are replaced by others, and margins are put in after line
boundaries, is read as the same lexemes up to string literals, unless a literal holds a line feed
and nothing can be read. The method that it declares is then known up to string literals.
-/

namespace MemberAccess.Java

open Lexer Text

/-- After the character `prev`, the second text is the first with characters that satisfy `p` put in
after line boundaries and texts that satisfy `Q` put in for empty string literals, of which each
comes after a separator. -/
inductive Requoted (p : CodePoint → Bool) (Q : Text → Prop) : (prev : CodePoint) → Text → Text → Prop
    where
  | nil {prev : CodePoint} : Requoted p Q prev [] []
  | pad {prev c : CodePoint} {t t' : Text} : prev.isLineBoundary = true → p c = true →
    Requoted p Q prev t t' → Requoted p Q prev t (c :: t')
  | keep {prev c : CodePoint} {t t' : Text} : isLiteralMark c = false → Requoted p Q c t t' →
    Requoted p Q prev (c :: t) (c :: t')
  | quoted {prev : CodePoint} {q t t' : Text} : prev ∈ separators → Q q → Requoted p Q '"' t t' →
    Requoted p Q prev ('"' :: '"' :: t) (q ++ t')

variable {p : CodePoint → Bool} {Q Q' : Text → Prop} {prev : CodePoint} {t t' x x' : Text}

namespace Requoted

theorem refl (h : IsPlain t) (prev : CodePoint) : Requoted p Q prev t t := by
  induction t generalizing prev with
  | nil => exact .nil
  | cons c t ih =>
    rw [IsPlain, List.forall_mem_cons] at h
    exact .keep h.1 (ih h.2 c)

theorem mono {p' : CodePoint → Bool} (hp : ∀ c, p c = true → p' c = true) (hQ : ∀ q, Q q → Q' q)
    (h : Requoted p Q prev t t') : Requoted p' Q' prev t t' := by
  induction h with
  | nil => exact .nil
  | pad hb hc _ ih => exact .pad hb (hp _ hc) ih
  | keep hc _ ih => exact .keep hc ih
  | quoted hs hq _ ih => exact .quoted hs (hQ _ hq) ih

theorem append (hx : Requoted p Q prev x x') (ht : Requoted p Q (x.getLast?.getD prev) t t') :
    Requoted p Q prev (x ++ t) (x' ++ t') := by
  induction hx with
  | nil => exact ht
  | pad hb hc _ ih => exact .pad hb hc (ih ht)
  | keep hc _ ih => exact .keep hc (ih (by simpa [List.getLast?_cons] using ht))
  | quoted hs hq _ ih =>
    rw [List.append_assoc]
    exact .quoted hs hq (ih (by simpa [List.getLast?_cons] using ht))

/-- What can stand anywhere can stand after anything. -/
theorem append_any (hx : Requoted p Q prev x x') (ht : ∀ c, Requoted p Q c t t') :
    Requoted p Q prev (x ++ t) (x' ++ t') := hx.append (ht _)

/-- A text that ends with a separator can come before what needs one before it. -/
theorem append_apart (hx : Requoted p Q prev x x') (h : EndsApart x)
    (ht : ∀ c ∈ separators, Requoted p Q c t t') : Requoted p Q prev (x ++ t) (x' ++ t') := by
  obtain ⟨c, hc, hlast⟩ := h
  exact hx.append (hlast ▸ ht c hc)

theorem join {xs xs' : List Text} {sep : Text} (hsep : IsPlain sep) (hlast : EndsApart sep)
    (hprev : prev ∈ separators)
    (h : List.Forall₂ (fun x x' => ∀ c ∈ separators, Requoted p Q c x x') xs xs') :
    Requoted p Q prev (Text.join sep xs) (Text.join sep xs') := by
  cases h with
  | nil => exact .nil
  | @cons x x' xs xs' hx h =>
    rw [Text.join_cons, Text.join_cons]
    refine .append_any (hx prev hprev) ?_
    induction h with
    | nil => exact fun _ => .nil
    | cons hy _ ih =>
      intro d
      rw [List.flatMap_cons, List.flatMap_cons, List.append_assoc, List.append_assoc]
      exact (refl hsep d).append_apart hlast fun c hc => (hy c hc).append_any ih

theorem margin {s : Text} (hs : s.all p = true) (hb : prev.isLineBoundary = false → s = [])
    (h : Requoted p Q prev t t') : Requoted p Q prev t (s ++ t') := by
  cases hprev : prev.isLineBoundary with
  | false => rwa [hb hprev]
  | true =>
    clear hb
    induction s with
    | nil => exact h
    | cons c s ih =>
      rw [List.all_cons, Bool.and_eq_true] at hs
      exact .pad hprev hs.1 (ih hs.2)

theorem padded (hQ : ∀ {q q'}, Q q → Padded p false q q' → Q' q')
    (h : Requoted (fun _ => false) Q prev x t) (ht : Padded p prev.isLineBoundary t t') :
    Requoted p Q' prev x t' := by
  induction h generalizing t' with
  | nil =>
    obtain ⟨s, u, rfl, hs, hb, hu⟩ := ht.exists_margin
    obtain rfl := hu.eq_nil_of_false
    exact .margin hs hb .nil
  | pad _ hc _ _ => cases hc
  | keep hc _ ih =>
    obtain ⟨s, u, rfl, hs, hb, hu⟩ := ht.exists_of_cons
    exact .margin hs hb (.keep hc (ih hu))
  | quoted hs hq _ ih =>
    obtain ⟨s, u, rfl, hs', hb, hu⟩ := ht.exists_margin
    obtain ⟨q', u, rfl, hq', hu⟩ := hu.exists_of_append_any
    exact .margin hs' hb (.quoted hs (hQ hq hq') (ih hu))

/-- What is put in at the beginning is a margin, as it could stand after a space. -/
theorem exists_margin (h : Requoted p Q prev t t') :
    ∃ s u, t' = s ++ u ∧ s.all p = true ∧ Requoted p Q ' ' t u := by
  induction h with
  | nil => exact ⟨[], [], rfl, rfl, .nil⟩
  | @pad _ c _ _ _ hc _ ih =>
    obtain ⟨s, u, rfl, hs, hu⟩ := ih
    exact ⟨c :: s, u, rfl, by simp [hc, hs], hu⟩
  | keep hc h => exact ⟨[], _, rfl, rfl, .keep hc h⟩
  | quoted _ hq h => exact ⟨[], _, rfl, rfl, .quoted (by decide) hq h⟩

theorem eq_nil (hprev : prev.isLineBoundary = false) (h : Requoted p Q prev [] t') : t' = [] := by
  cases h with
  | nil => rfl
  | pad hb => rw [hb] at hprev; cases hprev

/-- Within a line and without quotation marks the texts are the same. -/
theorem exists_of_append (hprev : prev.isLineBoundary = false)
    (hx : ∀ c ∈ x, c.isLineBoundary = false) (hq : IsPlain x)
    (h : Requoted p Q prev (x ++ t) t') :
    ∃ u, t' = x ++ u ∧ Requoted p Q (x.getLast?.getD prev) t u := by
  induction x generalizing prev t' with
  | nil => exact ⟨t', rfl, h⟩
  | cons c x ih =>
    rw [List.forall_mem_cons] at hx
    rw [IsPlain, List.forall_mem_cons] at hq
    rw [List.cons_append] at h
    generalize hrest : x ++ t = rest at h
    cases h with
    | pad hb => rw [hb] at hprev; cases hprev
    | keep _ h =>
      obtain ⟨u, rfl, hu⟩ := ih hx.1 hx.2 hq.2 (hrest ▸ h)
      exact ⟨u, rfl, by simpa [List.getLast?_cons] using hu⟩
    | quoted => cases hq.1

/-- A string of the first text is empty, and another text is put in for it. -/
theorem exists_of_string (hprev : prev.isLineBoundary = false) (hx : IsQuoted '"' x)
    (h : Requoted p Q prev (x ++ t) t') : ∃ q u, t' = q ++ u ∧ Q q ∧ Requoted p Q '"' t u := by
  obtain ⟨v, rfl, hv⟩ := hx
  rw [List.cons_append] at h
  generalize hrest : v ++ t = rest at h
  cases h with
  | pad hb => rw [hb] at hprev; cases hprev
  | keep hc => cases hc
  | quoted _ hq h =>
    cases hv with
    | mark =>
      obtain rfl := (List.cons.inj hrest).2
      exact ⟨_, _, rfl, hq, h⟩
    | plain hc => exact absurd (List.cons.inj hrest).1 hc
    | escaped => cases (List.cons.inj hrest).1

theorem not_of_character (hprev : prev.isLineBoundary = false) (hx : IsQuoted '\'' x) :
    ¬ Requoted p Q prev (x ++ t) t' := by
  obtain ⟨v, rfl, -⟩ := hx
  intro h
  cases h with
  | pad hb => rw [hb] at hprev; cases hprev
  | keep hc => cases hc

/-- Up to the first separator the texts are the same. -/
theorem eq_or_split (hprev : prev ∉ separators) (h : Requoted p Q prev t t') :
    t = t' ∨ ∃ y c z z', c ∈ separators ∧ t = y ++ c :: z ∧ t' = y ++ c :: z' := by
  induction h with
  | nil => exact .inl rfl
  | pad hb => exact absurd (mem_separators_of_isLineBoundary hb) hprev
  | @keep _ c t t' _ _ ih =>
    by_cases hc : c ∈ separators
    · exact .inr ⟨[], c, t, t', hc, rfl, rfl⟩
    · refine (ih hc).imp (congrArg _) ?_
      rintro ⟨y, d, z, z', hd, rfl, rfl⟩
      exact ⟨c :: y, d, z, z', hd, rfl, rfl⟩
  | quoted hs => exact absurd hs hprev

/-- A lexeme is read before the second text as before the first. -/
theorem readBefore {k : Terminal} (hk : ReadBefore t k x) (hs : k ≠ .mark .slash)
    (h : Requoted p Q (x.getLast?.getD ' ') t t') : ReadBefore t' k x := by
  obtain ⟨c, hc⟩ : ∃ c, x.getLast? = some c := by
    have hne : x ≠ [] := List.length_pos_iff.mp (lexeme?_fits (lexeme?_eq_some_iff.mpr hk)).1
    exact ⟨_, List.getLast?_eq_some_getLast hne⟩
  rw [hc, Option.getD_some] at h
  by_cases hm : c ∈ separators
  · exact hk.of_getLast? hc hm t'
  · rcases h.eq_or_split hm with rfl | ⟨y, d, z, z', hd, rfl, rfl⟩
    · exact hk
    · exact (readBefore_append_iff hd hs).mpr ((readBefore_append_iff hd hs).mp hk)

end Requoted

/-- Marks and backslashes have backslashes before them. -/
inductive Escaped : Text → Prop where
  | nil : Escaped []
  | plain {c : CodePoint} {u : Text} : c ≠ '"' → c ≠ '\\' → Escaped u → Escaped (c :: u)
  | pair {c : CodePoint} {u : Text} : c = '"' ∨ c = '\\' → Escaped u → Escaped ('\\' :: c :: u)

/-- An escaped text between quotation marks. -/
def IsDisguise (q : Text) : Prop :=
  ∃ u, Escaped u ∧ q = CodePoint.ofChar '"' :: (u ++ [CodePoint.ofChar '"'])

namespace Escaped
variable {u r : Text}

theorem flatMap_quotedChar (name : Text) : Escaped (name.flatMap TypeName.quotedChar) := by
  induction name with
  | nil => exact .nil
  | cons c name ih =>
    rw [List.flatMap_cons, TypeName.quotedChar]
    split
    · rename_i hc
      simp only [Bool.or_eq_true, decide_eq_true_eq] at hc
      exact .pair hc.symm ih
    · rename_i hc
      simp only [Bool.or_eq_true, decide_eq_true_eq, not_or] at hc
      exact .plain hc.2 hc.1 ih

theorem padded {b : Bool} {u' : Text} (h : Escaped u) (hu : Padded isMargin b u u') :
    Escaped u' := by
  have hmargin : ∀ {s u : Text}, s.all isMargin = true → Escaped u → Escaped (s ++ u) := by
    intro s u hs hu
    induction s with
    | nil => exact hu
    | cons c s ih =>
      rw [List.all_cons, Bool.and_eq_true] at hs
      exact .plain (ne_of_isMargin hs.1 (by decide)) (ne_of_isMargin hs.1 (by decide)) (ih hs.2)
  induction h generalizing b u' with
  | nil =>
    obtain ⟨s, u', rfl, hs, -, hu'⟩ := hu.exists_margin
    obtain rfl := hu'.eq_nil_of_false
    exact hmargin hs .nil
  | plain hq hb _ ih =>
    obtain ⟨s, u', rfl, hs, -, hu'⟩ := hu.exists_of_cons
    exact hmargin hs (.plain hq hb (ih hu'))
  | @pair c _ hc _ ih =>
    obtain ⟨s, u', rfl, hs, -, hu'⟩ := hu.exists_of_cons
    have hbackslash : CodePoint.isLineBoundary '\\' = false := by decide
    rw [hbackslash] at hu'
    obtain ⟨v, rfl, hv⟩ := hu'.exists_of_cons_false
    exact hmargin hs (.pair hc (ih hv))

theorem balanced (h : Escaped u) : Balanced u := by
  induction h with
  | nil => exact .nil
  | plain _ hb _ ih => exact .plain hb ih
  | pair hc _ ih =>
    refine .pair ?_ ih
    rcases hc with rfl | rfl <;> decide

/-- Where it holds no line feed, it is closed by the mark after it; else by none. -/
theorem closes_or_closing?_eq_none (h : Escaped u) :
    Closes '"' (u ++ [CodePoint.ofChar '"']) ∨
      ∀ r, closing? '"' (u ++ CodePoint.ofChar '"' :: r) = none := by
  induction h with
  | nil => exact .inl .mark
  | @plain c u hq hb _ ih =>
    by_cases hn : c = '\n'
    · refine .inr fun r => ?_
      subst hn
      rw [List.cons_append, closing?.eq_def]
      simp [hq]
    · refine ih.imp (fun h => .plain hq hn hb h) fun h r => ?_
      rw [List.cons_append, closing?.eq_def]
      simp [hq, hn, hb, h r]
  | @pair c u hc _ ih =>
    have hn : c ≠ '\n' := by rcases hc with rfl | rfl <;> decide
    refine ih.imp (fun h => .escaped (by decide) hn h) fun h r => ?_
    rw [List.cons_append, List.cons_append, closing?.eq_def]
    have hq : CodePoint.ofChar '\\' ≠ '"' := by decide
    have hb : CodePoint.ofChar '\\' ≠ '\n' := by decide
    simp [hq, hb, hn, h r]

end Escaped

theorem isDisguise_quote (name : Text) : IsDisguise (TypeName.quote name) :=
  ⟨_, Escaped.flatMap_quotedChar name, rfl⟩

theorem isDisguise_of_padded {name q : Text} (h : Padded isMargin false (TypeName.quote name) q) :
    IsDisguise q := by
  have hquote : TypeName.quote name =
      CodePoint.ofChar '"' :: (name.flatMap TypeName.quotedChar ++ [CodePoint.ofChar '"']) := rfl
  rw [hquote] at h
  obtain ⟨w, rfl, hw⟩ := h.exists_of_cons_false
  obtain ⟨u, v, rfl, hu, hv⟩ := hw.exists_of_append_any
  obtain ⟨z, rfl, hz⟩ := hv.exists_of_cons_false
  obtain rfl := hz.eq_nil_of_false
  exact ⟨u, (Escaped.flatMap_quotedChar name).padded hu, rfl⟩

theorem mark?_quote (r : Text) : mark? ('"' :: r) = none := by
  refine List.find?_eq_none.mpr fun m _ hp => ?_
  have hhead : ∀ m ∈ Mark.longestFirst, m.text.head? ≠ some (CodePoint.ofChar '"') := by decide
  obtain ⟨s, hs⟩ := List.isPrefixOf_iff_prefix.mp hp
  obtain ⟨c, y, hy⟩ := List.exists_cons_of_ne_nil (text_ne_nil m)
  rw [hy] at hs
  refine hhead m (Mark.mem_longestFirst m) ?_
  rw [hy, (List.cons.inj hs).1]
  rfl

/-- What stands for a quoted name is read as one string, or nothing is read. -/
theorem IsDisguise.isQuoted_or_stuck {q : Text} (h : IsDisguise q) :
    IsQuoted '"' q ∨ ∀ r, lexeme? (q ++ r) = none := by
  obtain ⟨u, hu, rfl⟩ := h
  refine hu.closes_or_closing?_eq_none.imp (fun h => ⟨_, rfl, h⟩) fun h r => ?_
  have hstart : isIdentifierStart '"' = false := by decide +kernel
  rw [List.cons_append, List.append_assoc, List.singleton_append, lexeme?,
    floating?_eq_none (by decide) (by decide), layout?_eq_none (by decide) (by decide),
    integer?_eq_none (by decide), word?_eq_none hstart, quoted?_eq_none (by decide), mark?_quote,
    quoted?, List.drop_succ_cons, List.drop_zero, h r]
  rfl

theorem IsDisguise.balanced {q : Text} (h : IsDisguise q) : Balanced q := by
  obtain ⟨u, hu, rfl⟩ := h
  exact .plain (by decide) (hu.balanced.append (.of_forall_ne (by decide)))

theorem IsDisguise.append_ne_nil {q : Text} (h : IsDisguise q) (r : Text) : q ++ r ≠ [] := by
  obtain ⟨u, -, rfl⟩ := h
  exact List.cons_ne_nil _ _

/-- If the text is scanned to its end, then to the lexemes but for the texts of strings. -/
def ScansAlike (pos : Position) (t : Text) (w : List Lexeme) : Prop :=
  ∃ tokens unread, Scans pos t tokens unread ∧
    (unread = [] → List.Forall₂ (SameLexeme SameText) w (tokens.map (·.toLexeme)))

namespace ScansAlike
variable {pos : Position} {w : List Lexeme}

theorem nil : ScansAlike pos [] [] := ⟨[], [], .done, fun _ => .nil⟩

theorem space {c : CodePoint} (hc : isSpace c = true) (h : ScansAlike (pos.step c) t w) :
    ScansAlike pos (c :: t) w := by
  obtain ⟨tokens, unread, hs, h⟩ := h
  exact ⟨tokens, unread, .space hc hs, h⟩

theorem margin {s : Text} (hs : s.all isMargin = true) (h : ScansAlike (pos.advance s) t w) :
    ScansAlike pos (s ++ t) w := by
  have hspaces : s.all isSpace = true :=
    List.all_eq_true.mpr fun c hc => isSpace_of_isMargin (List.all_eq_true.mp hs c hc)
  obtain ⟨tokens, unread, hs, h⟩ := h
  exact ⟨tokens, unread, .spaces hspaces hs, h⟩

theorem lexeme {k : Terminal} {y : Text} (hk : ReadBefore t k y) (hsame : SameText k x y)
    (h : ScansAlike (pos.advance y) t w) : ScansAlike pos (y ++ t) (⟨k, x⟩ :: w) := by
  obtain ⟨tokens, unread, hs, he⟩ := h
  exact ⟨_, unread, .token (lexeme?_eq_some_iff.mpr hk) hs, fun hn => .cons ⟨rfl, hsame⟩ (he hn)⟩

theorem stuck (hne : t ≠ []) (h : lexeme? t = none) : ScansAlike pos t w :=
  ⟨[], t, .stuck hne h, fun hn => absurd hn hne⟩

end ScansAlike

section
variable (hQ : ∀ q, Q q → IsDisguise q)
include hQ

theorem Requoted.balanced (h : Requoted isMargin Q prev t t') : Balanced t' := by
  induction h with
  | nil => exact .nil
  | pad _ hc _ ih => exact .plain (ne_of_isMargin hc (by decide)) ih
  | keep hc _ ih =>
    simp only [isLiteralMark, Bool.or_eq_false_iff, beq_eq_false_iff_ne] at hc
    exact .plain hc.2 ih
  | quoted _ hq _ ih => exact (hQ _ hq).balanced.append ih

/-- The second text is scanned to the lexemes of the first but for the strings, or not to its end. -/
theorem Spelled.scansAlike {w : List Lexeme} (h : Spelled t w) (hw : Slashless w)
    (hr : Requoted isMargin Q prev t t') (pos : Position) :
    ScansAlike pos t' w := by
  induction h generalizing prev t' pos with
  | nil =>
    obtain ⟨s, u, rfl, hs, hu⟩ := hr.exists_margin
    obtain rfl := hu.eq_nil (by decide)
    exact .margin hs .nil
  | @space c t _ hc _ ih =>
    obtain ⟨s, u, rfl, hs, hu⟩ := hr.exists_margin
    cases hu with
    | pad hb => cases hb
    | keep _ hu => exact .margin hs (.space hc (ih hw hu _))
    | quoted => cases hc
  | @lexeme k x t w hk _ ih =>
    have hwithin := List.forall_mem_cons.mp hw
    obtain ⟨s, u, rfl, hs, hu⟩ := hr.exists_margin
    refine .margin hs ?_
    by_cases hquoted : k ∈ [Terminal.character, .string]
    · cases hk with
      | floating | integer | mark => simp at hquoted
      | word hword =>
        rw [wordTerminal] at hquoted
        split at hquoted <;> simp at hquoted
      | character hx => exact absurd hu (Requoted.not_of_character (by decide) hx)
      | string hx =>
        obtain ⟨q, v, rfl, hq, hv⟩ := hu.exists_of_string (by decide) hx
        rcases (hQ q hq).isQuoted_or_stuck with hstring | hstuck
        · exact .lexeme (.string hstring) (fun hne => absurd rfl hne) (ih hwithin.2 hv _)
        · exact .stuck ((hQ q hq).append_ne_nil v) (hstuck v)
    · obtain ⟨v, rfl, hv⟩ := hu.exists_of_append (by decide)
        (isLineBoundary_of_readBefore hk hquoted)
        ((Readable.isTextOf (l := ⟨k, x⟩) ⟨t, hk⟩).isPlain hquoted)
      exact .lexeme (hv.readBefore hk hwithin.1) (fun _ => rfl) (ih hwithin.2 hv _)

namespace Phrase
variable {i : Bool} {m : MethodDeclaration}

/-- A method that is read from the second text is the method of the first, but for its strings. -/
theorem blank_eq_of_parse {m' : MethodDeclaration} (h : Phrase i .method t m)
    (hr : Requoted isMargin Q prev t t') (hm : parse t' = .ok m') : m'.blank = m.blank := by
  obtain ⟨w, hw, hd, ha⟩ := h
  obtain ⟨tokens, hs, hd'⟩ := derives_of_parse hm
  rw [(hr.balanced hQ).unescape_eq] at hs
  obtain ⟨tokens', unread, hs', he⟩ := hw.spelled.scansAlike hQ hw.slashless hr .start
  have hscan := hs.from_eq.symm.trans hs'.from_eq
  obtain rfl : tokens = tokens' := congrArg Scan.tokens hscan
  obtain rfl : [] = unread := congrArg Scan.unread hscan
  exact (blank_eq_of_derives hd hd' (he rfl) ha.angleFree).symm

end Phrase

end

end MemberAccess.Java
