import MemberAccess.Proofs.Java.Lexeme.Layout

/-!
# Texts spelled from lexemes

Lexemes can be written one after the other, with spaces where they need them, and are read as they
were written.
-/

namespace MemberAccess.Java

open Lexer

/-- The text is the lexemes one after the other, with spaces around them. -/
inductive Spelled : Text → List Lexeme → Prop where
  | nil : Spelled [] []
  | space {c : CodePoint} {t : Text} {w : List Lexeme} :
    isSpace c = true → Spelled t w → Spelled (c :: t) w
  | lexeme {k : Terminal} {x t : Text} {w : List Lexeme} :
    ReadBefore t k x → Spelled t w → Spelled (x ++ t) (⟨k, x⟩ :: w)

theorem Spelled.exists_scans {t : Text} {w : List Lexeme} (h : Spelled t w) (p : Position) :
    ∃ tokens, Scans p t tokens [] ∧ tokens.map (·.toLexeme) = w := by
  induction h generalizing p with
  | nil => exact ⟨[], .done, rfl⟩
  | @space c _ _ hc _ ih =>
    obtain ⟨tokens, hs, ht⟩ := ih (p.step c)
    exact ⟨tokens, hs.space hc, ht⟩
  | @lexeme k x _ _ hk _ ih =>
    obtain ⟨tokens, hs, ht⟩ := ih (p.advance x)
    exact ⟨⟨⟨k, x⟩, p⟩ :: tokens, .token (lexeme?_eq_some_iff.mpr hk) hs, by rw [List.map_cons, ht]⟩

/-- The lexemes can be read somewhere. -/
def Readable (l : Lexeme) : Prop := ∃ r, ReadBefore r l.terminal l.text

theorem readable_mark (m : Mark) : Readable ⟨.mark m, m.text⟩ := ⟨[], .mark (.intro m rfl)⟩

theorem readable_keyword (k : Keyword) : Readable ⟨.keyword k, k.text⟩ := by
  have := ReadBefore.word (r := []) (isWord_keyword k) rfl
  rw [wordTerminal_keyword] at this
  exact ⟨[], this⟩

theorem Scans.readable {p : Position} {t unread : Text} {tokens : List Token}
    (h : Scans p t tokens unread) : ∀ token ∈ tokens, Readable token.toLexeme := by
  induction h with
  | done => simp
  | stuck => simp
  | layout _ _ ih => exact ih
  | token hk _ ih =>
    intro token hm
    rcases List.mem_cons.mp hm with rfl | hm
    · exact ⟨_, lexeme?_eq_some_iff.mp hk⟩
    · exact ih token hm

/-- Lexemes with a space after each. -/
def spaced (w : List Lexeme) : Text := w.flatMap fun l => l.text ++ " "

theorem spelled_spaced {w : List Lexeme} (h : ∀ l ∈ w, Readable l) : Spelled (spaced w) w := by
  induction w with
  | nil => exact .nil
  | cons l w ih =>
    obtain ⟨r, hr⟩ := h l List.mem_cons_self
    have hw := ih fun l hl => h l (List.mem_cons_of_mem _ hl)
    rw [spaced, List.flatMap_cons, List.append_assoc]
    exact .lexeme (hr.separator (by decide)) (.space (by decide) hw)

/-- No lexeme is a slash, with which a comment could begin. -/
def Slashless (w : List Lexeme) : Prop := ∀ l ∈ w, l.terminal ≠ .mark .slash

/-- What begins with a separator can come after any lexemes. -/
theorem Spelled.append {x t : Text} {w w' : List Lexeme} {c : CodePoint} (h : Spelled x w)
    (hw : Slashless w) (hc : c ∈ separators) (ht : Spelled (c :: t) w') :
    Spelled (x ++ c :: t) (w ++ w') := by
  induction h with
  | nil => exact ht
  | space hd _ ih => exact .space hd (ih hw)
  | lexeme hk _ ih =>
    rw [List.append_assoc]
    exact .lexeme ((readBefore_append_iff hc (hw _ List.mem_cons_self)).mpr hk)
      (ih fun l hl => hw l (List.mem_cons_of_mem _ hl))

/-- Before a separator, what is spelled is read as its lexemes. -/
theorem Spelled.scans_append {x t unread : Text} {w : List Lexeme} {c : CodePoint}
    {tokens : List Token} (h : Spelled x w) (hw : Slashless w) (hc : c ∈ separators) {p : Position}
    (ht : Scans (p.advance x) (c :: t) tokens unread) :
    ∃ tokens', Scans p (x ++ c :: t) (tokens' ++ tokens) unread ∧
      tokens'.map (·.toLexeme) = w := by
  induction h generalizing p with
  | nil => exact ⟨[], ht, rfl⟩
  | @space d _ _ hd _ ih =>
    obtain ⟨tokens', hs, he⟩ := ih hw (p := p.step d) ht
    exact ⟨tokens', hs.space hd, he⟩
  | @lexeme k y z w hk _ ih =>
    obtain ⟨tokens', hs, he⟩ := ih (fun l hl => hw l (List.mem_cons_of_mem _ hl))
      (p := p.advance y) (by rwa [Position.advance, List.foldl_append] at ht)
    have hk := (readBefore_append_iff (s := t) hc (hw _ List.mem_cons_self)).mpr hk
    refine ⟨⟨⟨k, y⟩, p⟩ :: tokens', ?_, by rw [List.map_cons, he]⟩
    rw [List.append_assoc]
    exact .token (lexeme?_eq_some_iff.mpr hk) hs

theorem Spelled.eq_nil {w : List Lexeme} (h : Spelled [] w) : w = [] := by
  generalize ht : ([] : Text) = t at h
  cases h with
  | nil => rfl
  | space => cases ht
  | lexeme hk _ =>
    obtain ⟨rfl, rfl⟩ := List.append_eq_nil_iff.mp ht.symm
    exact absurd (lexeme?_fits (lexeme?_eq_some_iff.mpr hk)).1 (Nat.lt_irrefl 0)

theorem markBefore_of_mem {m : Mark}
    (hm : m ∈ [.leftParenthesis, .rightParenthesis, .comma, .semicolon]) (t : Text) :
    MarkBefore m t := by
  simp only [List.mem_cons, List.not_mem_nil, or_false] at hm
  rcases hm with rfl | rfl | rfl | rfl <;>
    exact ⟨floating?_eq_none (by decide) (by decide), layout?_eq_none (by decide) (by decide), rfl⟩

/-- A lexeme that ends with a separator is read before anything. -/
theorem Lexer.ReadBefore.of_getLast? {k : Terminal} {x r : Text} {c : CodePoint} (h : ReadBefore r k x)
    (hx : x.getLast? = some c) (hc : c ∈ separators) (t : Text) : ReadBefore t k x := by
  obtain ⟨u, rfl⟩ := List.getLast?_eq_some_iff.mp hx
  generalize he : u ++ [c] = x at h
  cases h with
  | floating h =>
    rw [← he, List.append_assoc, List.singleton_append, floating?_of_separator hc] at h
    exact absurd (floating?_fits h).2 (by simp)
  | integer _ h =>
    rw [← he, List.append_assoc, List.singleton_append, integer?_of_separator hc] at h
    exact absurd (integer?_fits h).2 (by simp)
  | word hw _ =>
    have hp : ∀ d ∈ separators, isIdentifierPart d = false := by decide +kernel
    have := List.all_eq_true.mp hw.2 c (by simp [← he])
    rw [hp c hc] at this
    cases this
  | character h => exact .character h
  | string h => exact .string h
  | @mark m _ =>
    have hm : ∀ m ∈ Mark.longestFirst, ∀ d ∈ separators, m.text.getLast? = some d →
        m ∈ [.leftParenthesis, .rightParenthesis, .comma, .semicolon] := by decide
    have hm := hm m (Mark.mem_longestFirst m) c hc (by simp [← he])
    exact .mark (markBefore_of_mem hm t)

/-- Anything can come after lexemes that end with a separator. -/
theorem Spelled.append_of_getLast? {x t : Text} {w w' : List Lexeme} {c : CodePoint}
    (h : Spelled x w) (hx : x.getLast? = some c) (hw : Slashless w) (hc : c ∈ separators)
    (ht : Spelled t w') : Spelled (x ++ t) (w ++ w') := by
  induction h with
  | nil => cases hx
  | @space d z _ hd hz ih =>
    cases z with
    | nil =>
      obtain rfl := hz.eq_nil
      exact .space hd ht
    | cons e z => exact .space hd (ih hx hw)
  | @lexeme k y z _ hk hz ih =>
    rw [List.append_assoc]
    cases z with
    | nil =>
      obtain rfl := hz.eq_nil
      rw [List.append_nil] at hx
      exact .lexeme (hk.of_getLast? hx hc t) ht
    | cons e z =>
      have hx : (e :: z).getLast? = some c := by
        rw [List.getLast?_append] at hx
        simpa [List.getLast?_cons] using hx
      refine .lexeme ?_ (ih hx fun l hl => hw l (List.mem_cons_of_mem _ hl))
      have hs : k ≠ .mark .slash := hw _ List.mem_cons_self
      obtain ⟨u, hu⟩ := List.getLast?_eq_some_iff.mp hx
      rw [hu] at hk ⊢
      rw [List.append_assoc, List.singleton_append, readBefore_append_iff hc hs]
      exact (readBefore_append_iff hc hs).mp hk

theorem Spelled.spaces {x t : Text} {w : List Lexeme} (hx : x.all isSpace = true)
    (h : Spelled t w) : Spelled (x ++ t) w := by
  induction x with
  | nil => exact h
  | cons c x ih =>
    rw [List.all_cons, Bool.and_eq_true] at hx
    exact .space hx.1 (ih hx.2)

/-- Where there is no slash, layout is white space. -/
theorem all_isSpace_of_layout {x rest : Text} (hx : CodePoint.ofChar '/' ∉ x)
    (h : lexeme? (x ++ rest) = some (.layout, x.length)) : x.all isSpace = true := by
  cases isLayout_of_lexeme? h with
  | spaces hs => exact hs
  | line | block => exact absurd (.head _) hx

theorem Scans.spelled {p : Position} {t : Text} {tokens : List Token} (h : Scans p t tokens [])
    (ht : CodePoint.ofChar '/' ∉ t) : Spelled t (tokens.map (·.toLexeme)) := by
  generalize hu : ([] : Text) = unread at h
  induction h with
  | done => exact .nil
  | stuck hne => exact absurd hu.symm hne
  | layout hx _ ih =>
    rw [List.mem_append, not_or] at ht
    exact (ih ht.2 hu).spaces (all_isSpace_of_layout ht.1 hx)
  | token hk _ ih =>
    rw [List.mem_append, not_or] at ht
    exact .lexeme (lexeme?_eq_some_iff.mp hk) (ih ht.2 hu)

theorem slash_mem_of_readBefore {k : Terminal} {x r : Text} (h : ReadBefore r k x)
    (hk : k = .mark .slash) : CodePoint.ofChar '/' ∈ x := by
  cases h with
  | floating | integer | character | string => cases hk
  | word =>
    unfold wordTerminal at hk
    split at hk <;> cases hk
  | mark =>
    cases hk
    decide

theorem Spelled.slashless {t : Text} {w : List Lexeme} (h : Spelled t w)
    (ht : CodePoint.ofChar '/' ∉ t) : Slashless w := by
  induction h with
  | nil => exact fun l hl => by cases hl
  | space _ _ ih => exact ih fun hm => ht (List.mem_cons_of_mem _ hm)
  | lexeme hk _ ih =>
    rw [List.mem_append, not_or] at ht
    rintro l (_ | ⟨_, hl⟩)
    · intro he
      exact ht.1 (slash_mem_of_readBefore hk he)
    · exact ih ht.2 l hl

end MemberAccess.Java
