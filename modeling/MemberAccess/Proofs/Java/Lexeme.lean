import MemberAccess.Proofs.Java.Lexeme.Number

/-!
# Lexemes by themselves

Words, quoted literals and marks are told by their first character. A lexeme that is read anywhere
is read before a separator.
-/

namespace MemberAccess.Java.Lexer

variable {p : CodePoint → Bool} {c : CodePoint} {u r s rest : Text} {n : Nat}

theorem isAsciiDigit_of_isIdentifierStart (h : isIdentifierStart c = true) :
    c.isAsciiDigit = false := by
  rw [Bool.eq_false_iff]
  intro hd
  have hd' := hd
  simp only [CodePoint.isAsciiDigit, Bool.and_eq_true, decide_eq_true_eq] at hd'
  have hlt : c.toNat < 0x80 := by omega
  simp only [isIdentifierStart, CodePoint.isDecimal, if_pos hlt, hd, Bool.not_true, Bool.and_false,
    Bool.false_or, beq_iff_eq] at h
  subst h
  exact absurd hd (by decide)

theorem ne_of_isIdentifierStart {d : CodePoint} (h : isIdentifierStart c = true)
    (hd : isIdentifierStart d = false) : c ≠ d := by
  rintro rfl
  exact absurd h (by simp [hd])

theorem floating?_eq_none (hd : c.isAsciiDigit = false) (hp : c ≠ '.') :
    floating? (c :: rest) = none := by
  simp [floating?, digits, hd, hp]

theorem integer?_eq_none (hd : c.isAsciiDigit = false) : integer? (c :: rest) = none := by
  have hz : c ≠ '0' := by
    rintro rfl
    exact absurd hd (by decide)
  simp [integer?, based?, digits, hd, hz]

theorem layout?_eq_none (hs : isSpace c = false) (hc : c ≠ '/') : layout? (c :: rest) = none := by
  simp [layout?, hs, hc]

theorem word?_eq_none (h : isIdentifierStart c = false) : word? (c :: rest) = none := by
  simp [word?, h]

theorem quoted?_eq_none {mark : Char} (h : c ≠ mark) : quoted? mark (c :: rest) = none := by
  simp [quoted?, h]

/-- The text is a word, which is an identifier or a keyword. -/
def IsWord (x : Text) : Prop := Text.beginsWith isIdentifierStart x = true ∧ x.all isIdentifierPart = true

theorem word?_append {x : Text} (hx : IsWord x) (hr : Text.beginsWith isIdentifierPart r = false) :
    word? (x ++ r) = some x.length := by
  have hne : x ≠ [] := by
    rintro rfl
    cases hx.1
  rw [word?, beginsWith_append hne, if_pos hx.1, run_append_of_beginsWith hr, run_eq_length hx.2]

theorem isWord_of_word? {x : Text} (h : word? (x ++ r) = some x.length) :
    IsWord x ∧ Text.beginsWith isIdentifierPart r = false := by
  simp only [word?, Option.ite_none_right_eq_some, Option.some.injEq] at h
  obtain ⟨hs, hr⟩ := h
  have hpos : 0 < run isIdentifierPart (x ++ r) := by
    obtain ⟨d, rest, he, hd⟩ := Text.beginsWith_iff.mp hs
    exact run_pos (Text.beginsWith_iff.mpr ⟨d, rest, he, isIdentifierPart_of_isIdentifierStart hd⟩)
  have hne : x ≠ [] := List.length_pos_iff.mp (hr ▸ hpos)
  rw [beginsWith_append hne] at hs
  obtain ⟨hall, hr⟩ := all_of_run hr
  exact ⟨⟨hs, hall⟩, hr⟩

theorem lexeme?_word {x : Text} (hx : IsWord x) (hr : Text.beginsWith isIdentifierPart r = false) :
    lexeme? (x ++ r) = some (.token (wordTerminal x), x.length) := by
  have hw := word?_append hx hr
  have hs := hx.1
  obtain ⟨c, y, rfl, hc⟩ := Text.beginsWith_iff.mp hs
  have hd := isAsciiDigit_of_isIdentifierStart hc
  have hsp : isSpace c = false := isSpace_eq_false (by decide +kernel) hc
  have ht : (c :: y ++ r).take (c :: y).length = c :: y := List.take_left
  rw [lexeme?, hw, List.cons_append, floating?_eq_none hd (ne_of_isIdentifierStart hc (by decide)),
    layout?_eq_none hsp (ne_of_isIdentifierStart hc (by decide)), integer?_eq_none hd,
    ← List.cons_append, Option.map_some, ht]
  rfl

theorem isWord_keyword (k : Keyword) : IsWord k.text := by
  have h : ∀ k ∈ Keyword.all, Text.beginsWith isIdentifierStart k.text = true ∧
      k.text.all isIdentifierPart = true := by decide +kernel
  exact h k (Keyword.mem_all k)

theorem wordTerminal_keyword (k : Keyword) : wordTerminal k.text = .keyword k := by
  have h : ∀ k ∈ Keyword.all, wordTerminal k.text = .keyword k := by decide +kernel
  exact h k (Keyword.mem_all k)

/-- The text is the rest of a quoted literal up to and with its closing mark. -/
inductive Closes (mark : Char) : Text → Prop where
  | mark : Closes mark [CodePoint.ofChar mark]
  | plain {c : CodePoint} {u : Text} :
    c ≠ mark → c ≠ '\n' → c ≠ '\\' → Closes mark u → Closes mark (c :: u)
  | escaped {d : CodePoint} {u : Text} :
    CodePoint.ofChar '\\' ≠ mark → d ≠ '\n' → Closes mark u → Closes mark ('\\' :: d :: u)

theorem closing?_append {mark : Char} (h : Closes mark u) (r : Text) :
    closing? mark (u ++ r) = some u.length := by
  induction h with
  | mark =>
    rw [List.cons_append, closing?.eq_def]
    simp
  | plain hm hn hb _ ih =>
    rw [List.cons_append, closing?.eq_def]
    simp [hm, hn, hb, ih]
  | escaped hm hn _ ih =>
    rw [List.cons_append, List.cons_append, closing?.eq_def]
    have hb : CodePoint.ofChar '\\' ≠ '\n' := by decide
    simp [hm, hn, hb, ih]

theorem closes_of_closing? {mark : Char} (h : closing? mark u = some n) :
    Closes mark (u.take n) := by
  fun_induction closing? mark u generalizing n with
  | case1 | case3 | case4 | case5 => cases h
  | case2 =>
    obtain rfl := Option.some.inj h
    exact .mark
  | case6 =>
    rename_i ih
    obtain ⟨m, hm, rfl⟩ := Option.map_eq_some_iff.mp h
    exact .escaped ‹_› ‹_› (ih hm)
  | case7 =>
    rename_i ih
    obtain ⟨m, hm, rfl⟩ := Option.map_eq_some_iff.mp h
    exact .plain ‹_› ‹_› ‹_› (ih hm)

/-- The text is a literal between two marks. -/
def IsQuoted (mark : Char) (x : Text) : Prop := ∃ u, x = CodePoint.ofChar mark :: u ∧ Closes mark u

theorem quoted?_append {mark : Char} {x : Text} (hx : IsQuoted mark x) (r : Text) :
    quoted? mark (x ++ r) = some x.length := by
  obtain ⟨u, rfl, hu⟩ := hx
  simp [quoted?, closing?_append hu]

theorem isQuoted_of_quoted? {mark : Char} {x : Text}
    (h : quoted? mark (x ++ r) = some x.length) : IsQuoted mark x := by
  simp only [quoted?, Option.ite_none_right_eq_some, Option.map_eq_some_iff] at h
  obtain ⟨hb, m, hm, hn⟩ := h
  cases x with
  | nil => cases hn
  | cons d u =>
    obtain rfl : d = mark := by simpa using hb
    obtain rfl : m = u.length := by simpa using hn
    have hu := closes_of_closing? hm
    simp only [List.cons_append, List.drop_succ_cons, List.drop_zero, List.take_left] at hu
    exact ⟨u, rfl, hu⟩

theorem lexeme?_character {x : Text} (hx : IsQuoted '\'' x) (r : Text) :
    lexeme? (x ++ r) = some (.token .character, x.length) := by
  have hq := quoted?_append hx r
  obtain ⟨u, rfl, -⟩ := hx
  rw [lexeme?, hq, List.cons_append, floating?_eq_none (by decide) (by decide),
    layout?_eq_none (by decide) (by decide), integer?_eq_none (by decide), word?_eq_none (by decide)]
  rfl

theorem lexeme?_string {x : Text} (hx : IsQuoted '"' x) (r : Text) :
    lexeme? (x ++ r) = some (.token .string, x.length) := by
  have hq := quoted?_append hx r
  obtain ⟨u, rfl, -⟩ := hx
  rw [lexeme?, hq, List.cons_append, floating?_eq_none (by decide) (by decide),
    layout?_eq_none (by decide) (by decide), integer?_eq_none (by decide), word?_eq_none (by decide),
    quoted?_eq_none (by decide)]
  rfl

/-- A character with which a mark, or what began like one, can go on. -/
def continuesMark (c : CodePoint) : Bool :=
  c == '.' || c == '=' || c == '&' || c == '|' || c == '/' || c == '*' || c.isAsciiDigit

theorem isPrefixOf_append_cons {x y : Text} (hy : y ≠ []) (hc : c ∉ x.tail) :
    x.isPrefixOf (y ++ c :: s) = x.isPrefixOf y := by
  rw [Bool.eq_iff_iff, List.isPrefixOf_iff_prefix, List.isPrefixOf_iff_prefix]
  refine ⟨fun h => ?_, fun h => h.trans (List.prefix_append _ _)⟩
  rcases List.prefix_or_prefix_of_prefix h (List.prefix_append y (c :: s)) with h' | ⟨z, rfl⟩
  · exact h'
  · have hz := (List.prefix_append_right_inj y).mp h
    cases z with
    | nil => simp
    | cons d z =>
      obtain ⟨rfl, -⟩ := List.cons_prefix_cons.mp hz
      obtain ⟨e, y, rfl⟩ := List.exists_cons_of_ne_nil hy
      simp at hc

theorem mark?_append_cons {y : Text} (hy : y ≠ []) (hc : continuesMark c = false) :
    mark? (y ++ c :: s) = mark? y := by
  have htail : ∀ k : Mark, ∀ d ∈ k.text.tail, continuesMark d = true := by
    intro k
    cases k <;> decide
  rw [mark?, mark?]
  congr 1
  funext k
  apply isPrefixOf_append_cons hy
  intro hm
  rw [htail k c hm] at hc
  cases hc

theorem text_ne_nil (m : Mark) : m.text ≠ [] := by cases m <;> decide

theorem mark?_append (m : Mark) (h : Text.beginsWith continuesMark r = false) :
    mark? (m.text ++ r) = some m := by
  have hself : mark? m.text = some m := by cases m <;> rfl
  cases r with
  | nil => rwa [List.append_nil]
  | cons c s => rwa [mark?_append_cons (text_ne_nil m) h]

theorem continuesMark_eq_false (h : Text.beginsWith continuesMark r = false)
    (hp : ∀ d, p d = true → continuesMark d = true) : Text.beginsWith p r = false := by
  cases r with
  | nil => rfl
  | cons d r =>
    rw [Bool.eq_false_iff]
    intro hd
    rw [Text.beginsWith_cons, hp d hd] at h
    cases h

theorem floating?_mark (m : Mark) (h : Text.beginsWith continuesMark r = false) :
    floating? (m.text ++ r) = none := by
  have hdot : floating? ('.' :: r) = none := by
    have hd : Text.beginsWith CodePoint.isAsciiDigit r = false :=
      continuesMark_eq_false h fun d hd => by simp [continuesMark, hd]
    have hz : CodePoint.isAsciiDigit '.' = false := by decide
    simp [floating?, digits, hd, hz]
  cases m with
  | dot => exact hdot
  | ellipsis => rfl
  | _ => exact floating?_eq_none (by decide) (by decide)

theorem layout?_mark {m : Mark} (hm : m ≠ .slash) (r : Text) : layout? (m.text ++ r) = none := by
  cases m with
  | slash => exact absurd rfl hm
  | _ => exact layout?_eq_none (by decide) (by decide)

theorem layout?_slash (h : Text.beginsWith continuesMark r = false) :
    layout? ('/' :: r) = none := by
  have hs : Text.beginsWith (· == '/') r = false :=
    continuesMark_eq_false h fun d hd => by simp_all [continuesMark]
  have hstar : Text.beginsWith (· == '*') r = false :=
    continuesMark_eq_false h fun d hd => by simp_all [continuesMark]
  have hz : isSpace '/' = false := by decide
  simp [layout?, hs, hstar, hz]

/-- The mark is read before `r`. -/
def MarkBefore (m : Mark) (r : Text) : Prop :=
  floating? (m.text ++ r) = none ∧ layout? (m.text ++ r) = none ∧ mark? (m.text ++ r) = some m

theorem MarkBefore.intro (m : Mark) (h : Text.beginsWith continuesMark r = false) :
    MarkBefore m r := by
  refine ⟨floating?_mark m h, ?_, mark?_append m h⟩
  by_cases hm : m = .slash
  · subst hm
    exact layout?_slash h
  · exact layout?_mark hm r

theorem MarkBefore.lexeme?_eq {m : Mark} (h : MarkBefore m r) :
    lexeme? (m.text ++ r) = some (.token (.mark m), m.text.length) := by
  obtain ⟨hf, hl, hm⟩ := h
  have hi : integer? (m.text ++ r) = none := by cases m <;> exact integer?_eq_none (by decide)
  have hw : word? (m.text ++ r) = none := by cases m <;> exact word?_eq_none (by decide)
  have hq : quoted? '\'' (m.text ++ r) = none := by cases m <;> exact quoted?_eq_none (by decide)
  have hq' : quoted? '"' (m.text ++ r) = none := by cases m <;> exact quoted?_eq_none (by decide)
  rw [lexeme?, hf, hl, hi, hw, hq, hq', hm]
  rfl

theorem lexeme?_floating (h : floating? u = some n) :
    lexeme? u = some (.token .floating, n) := by
  rw [lexeme?, h]
  rfl

theorem lexeme?_integer (hf : floating? u = none) (h : integer? u = some n) :
    lexeme? u = some (.token .integer, n) := by
  have hl : layout? u = none := by
    obtain ⟨hpos, hle⟩ := integer?_fits h
    obtain ⟨d, y, rfl⟩ := List.exists_cons_of_ne_nil (List.length_pos_iff.mp (Nat.le_trans hpos hle))
    cases hd : d.isAsciiDigit with
    | false =>
      rw [integer?_eq_none hd] at h
      cases h
    | true =>
      apply layout?_eq_none
      · exact isSpace_eq_false (by decide) hd
      · rintro rfl
        exact absurd hd (by decide)
  rw [lexeme?, hf, hl, h]
  rfl

/-- How a lexeme can have been read before `r`. -/
inductive ReadBefore (r : Text) : Terminal → Text → Prop where
  | floating {x : Text} : floating? (x ++ r) = some x.length → ReadBefore r .floating x
  | integer {x : Text} :
    floating? (x ++ r) = none → integer? (x ++ r) = some x.length → ReadBefore r .integer x
  | word {x : Text} :
    IsWord x → Text.beginsWith isIdentifierPart r = false → ReadBefore r (wordTerminal x) x
  | character {x : Text} : IsQuoted '\'' x → ReadBefore r .character x
  | string {x : Text} : IsQuoted '"' x → ReadBefore r .string x
  | mark {m : Mark} : MarkBefore m r → ReadBefore r (.mark m) m.text

theorem lexeme?_eq_some_iff {k : Terminal} {x : Text} :
    lexeme? (x ++ r) = some (.token k, x.length) ↔ ReadBefore r k x := by
  constructor
  · intro h
    simp only [lexeme?, Option.orElse_eq_orElse, Option.orElse_eq_or, Option.or_eq_some_iff,
      Option.map_eq_some_iff, Option.map_eq_none_iff, Prod.mk.injEq, LexemeClass.token.injEq] at h
    rcases h with ⟨n, h, rfl, rfl⟩ | ⟨hf, ⟨n, h, hk, -⟩ | ⟨hl, ⟨n, h, rfl, rfl⟩ |
      ⟨-, ⟨n, h, hk, rfl⟩ | ⟨-, ⟨n, h, rfl, rfl⟩ | ⟨-, ⟨n, h, rfl, rfl⟩ | ⟨-, ⟨m, h, rfl, hm⟩⟩⟩⟩⟩⟩⟩
    · exact .floating h
    · cases hk
    · exact .integer hf h
    · rw [List.take_left] at hk
      subst hk
      exact .word (isWord_of_word? h).1 (isWord_of_word? h).2
    · exact .character (isQuoted_of_quoted? h)
    · exact .string (isQuoted_of_quoted? h)
    · have hx : m.text = x := by
        have hp := List.find?_some h
        rw [List.isPrefixOf_iff_prefix] at hp
        exact List.IsPrefix.eq_of_length (List.prefix_of_prefix_length_le hp
          (List.prefix_append x r) (Nat.le_of_eq hm)) hm
      subst hx
      exact .mark ⟨hf, hl, h⟩
  · rintro (h | ⟨hf, h⟩ | ⟨hx, hr⟩ | hx | hx | h)
    · exact lexeme?_floating h
    · exact lexeme?_integer hf h
    · exact lexeme?_word hx hr
    · exact lexeme?_character hx r
    · exact lexeme?_string hx r
    · exact h.lexeme?_eq

/-- A lexeme is read before a separator if it is read anywhere. -/
theorem ReadBefore.separator {k : Terminal} {x : Text} (h : ReadBefore r k x)
    (hc : c ∈ separators) : ReadBefore (c :: s) k x := by
  have hpart : ∀ d ∈ separators, isIdentifierPart d = false := by decide +kernel
  have hcontinues : ∀ d ∈ separators, continuesMark d = false := by decide
  cases h with
  | floating h =>
    apply ReadBefore.floating
    rw [floating?_of_separator hc, floating?_of_append, h]
    intro m hm
    exact Nat.le_of_eq (Option.some.inj (h.symm.trans hm)).symm
  | integer hf h =>
    apply ReadBefore.integer
    · rw [floating?_of_separator hc, floating?_of_append, hf]
      simp [hf]
    · rw [integer?_of_separator hc, integer?_of_append, h]
      intro m hm
      exact Nat.le_of_eq (Option.some.inj (h.symm.trans hm)).symm
  | word hx _ => exact .word hx (hpart c hc)
  | character hx => exact .character hx
  | string hx => exact .string hx
  | mark => exact .mark (.intro _ (hcontinues c hc))

theorem markBefore_append_iff {m : Mark} {y : Text} (hc : c ∈ separators) (hm : m ≠ .slash) :
    MarkBefore m (y ++ c :: s) ↔ MarkBefore m y := by
  have hcontinues : ∀ d ∈ separators, continuesMark d = false := by decide
  have hne : m.text ++ y ≠ [] := List.append_ne_nil_of_left_ne_nil (text_ne_nil m) y
  rw [MarkBefore, MarkBefore, layout?_mark hm, layout?_mark hm, ← List.append_assoc,
    floating?_of_separator hc, mark?_append_cons hne (hcontinues c hc)]

/-- What stands after a separator does not matter to a lexeme before it. A slash is different: a
comment can begin with it. -/
theorem readBefore_append_iff {k : Terminal} {x y : Text} (hc : c ∈ separators)
    (hk : k ≠ .mark .slash) : ReadBefore (y ++ c :: s) k x ↔ ReadBefore y k x := by
  have hf : floating? (x ++ (y ++ c :: s)) = floating? (x ++ y) := by
    rw [← List.append_assoc, floating?_of_separator hc]
  have hi : integer? (x ++ (y ++ c :: s)) = integer? (x ++ y) := by
    rw [← List.append_assoc, integer?_of_separator hc]
  have hp : Text.beginsWith isIdentifierPart (y ++ c :: s) = Text.beginsWith isIdentifierPart y := by
    have hpart : ∀ d ∈ separators, isIdentifierPart d = false := by decide +kernel
    cases y with
    | nil => exact hpart c hc
    | cons d y => rfl
  constructor
  · rintro (h | ⟨hf', h⟩ | ⟨hx, hr⟩ | hx | hx | h)
    · exact .floating (hf ▸ h)
    · exact .integer (hf ▸ hf') (hi ▸ h)
    · exact .word hx (hp ▸ hr)
    · exact .character hx
    · exact .string hx
    · exact .mark ((markBefore_append_iff hc fun hm => hk (congrArg _ hm)).mp h)
  · rintro (h | ⟨hf', h⟩ | ⟨hx, hr⟩ | hx | hx | h)
    · exact .floating (hf.trans h)
    · exact .integer (hf.trans hf') (hi.trans h)
    · exact .word hx (hp.trans hr)
    · exact .character hx
    · exact .string hx
    · exact .mark ((markBefore_append_iff hc fun hm => hk (congrArg _ hm)).mpr h)

end MemberAccess.Java.Lexer
