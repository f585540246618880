import MemberAccess.Java.Lexer

/-!
# Reading a text lexeme by lexeme

A lexeme takes at least one character and no more than there are. A scan is therefore a reading of
one lexeme after the other, each at the place where it stands, up to the end or to a place where
none can be read.
-/

namespace MemberAccess

namespace Text
variable {p : CodePoint → Bool}

@[simp] theorem beginsWith_nil : beginsWith p [] = false := rfl

@[simp] theorem beginsWith_cons {c : CodePoint} {t : Text} : beginsWith p (c :: t) = p c := rfl

theorem beginsWith_iff {t : Text} : beginsWith p t = true ↔ ∃ c rest, t = c :: rest ∧ p c = true := by
  cases t <;> simp

theorem beginsWith_drop_lt {t : Text} {n : Nat} (h : beginsWith p (t.drop n) = true) :
    n < t.length := by
  obtain ⟨c, rest, h, -⟩ := beginsWith_iff.mp h
  have := congrArg List.length h
  simp only [List.length_drop, List.length_cons] at this
  omega

end Text

namespace Java.Lexer

/-- A number of characters that can be read from the text. -/
def Fits (t : Text) (n : Nat) : Prop := 0 < n ∧ n ≤ t.length

variable {p : CodePoint → Bool} {t : Text} {n : Nat}

theorem run_le (p : CodePoint → Bool) (t : Text) : run p t ≤ t.length :=
  (List.takeWhile_prefix p).length_le

theorem run_pos (h : Text.beginsWith p t = true) : 0 < run p t := by
  obtain ⟨c, rest, rfl, hc⟩ := Text.beginsWith_iff.mp h
  simp [run, hc]

theorem run_drop_le (p : CodePoint → Bool) (h : n ≤ t.length) : n + run p (t.drop n) ≤ t.length := by
  have := run_le p (t.drop n)
  rw [List.length_drop] at this
  omega

theorem digits_le (t : Text) : digits t ≤ t.length := by
  rw [digits]
  split
  · exact run_le _ t
  · exact Nat.zero_le _

theorem withSuffix_fits (h : Fits t n) : Fits t (withSuffix p n t) := by
  rw [withSuffix]
  split
  · rename_i hp
    have := Text.beginsWith_drop_lt hp
    exact ⟨by omega, this⟩
  · exact h

theorem exponent_le_length (t : Text) : exponent t ≤ t.length := by
  simp only [exponent]
  generalize (if Text.beginsWith isSign (t.drop 1) then 1 else 0) = sign
  have := run_le CodePoint.isAsciiDigit (t.drop (1 + sign))
  rw [List.length_drop] at this
  split
  · split
    · omega
    · omega
  · omega

theorem exponent_le (h : n ≤ t.length) : n + exponent (t.drop n) ≤ t.length := by
  have := exponent_le_length (t.drop n)
  rw [List.length_drop] at this
  omega

/-- Whether a literal that begins with `w` digits has a point. -/
def HasPoint (w : Nat) (t : Text) : Prop :=
  Text.beginsWith (· == '.') (t.drop w) = true ∧ (w ≠ 0 ∨ digits (t.drop (w + 1)) ≠ 0)

instance (w : Nat) (t : Text) : Decidable (HasPoint w t) := inferInstanceAs (Decidable (_ ∧ _))

/-- The length of a literal with a point after `w` digits. -/
def withPoint (w : Nat) (t : Text) : Nat :=
  let fraction := w + 1 + run isDigitOrUnderscore (t.drop (w + 1))
  withSuffix isFloatSuffix (fraction + exponent (t.drop fraction)) t

/-- The length of a literal that begins with `w` digits and has no point. -/
def withoutPoint? (w : Nat) (t : Text) : Option Nat :=
  if w = 0 then none
  else if exponent (t.drop w) ≠ 0 then
    some (withSuffix isFloatSuffix (w + exponent (t.drop w)) t)
  else if Text.beginsWith isFloatSuffix (t.drop w) then some (w + 1)
  else none

theorem floating?_eq (t : Text) : floating? t =
    if HasPoint (digits t) t then some (withPoint (digits t) t)
    else withoutPoint? (digits t) t := by
  simp [floating?, HasPoint, withPoint, withoutPoint?]

/-- After the digits a floating-point literal has a point, an exponent or a suffix. -/
theorem floating?_cases (h : floating? t = some n) :
    HasPoint (digits t) t ∧ n = withPoint (digits t) t ∨
    exponent (t.drop (digits t)) ≠ 0 ∧
      n = withSuffix isFloatSuffix (digits t + exponent (t.drop (digits t))) t ∨
    Text.beginsWith isFloatSuffix (t.drop (digits t)) = true ∧ n = digits t + 1 := by
  rw [floating?_eq] at h
  by_cases hpoint : HasPoint (digits t) t
  · rw [if_pos hpoint] at h
    exact .inl ⟨hpoint, (Option.some.inj h).symm⟩
  rw [if_neg hpoint, withoutPoint?, Option.ite_none_left_eq_some] at h
  obtain ⟨-, h⟩ := h
  by_cases he : exponent (t.drop (digits t)) ≠ 0
  · rw [if_pos he] at h
    exact .inr (.inl ⟨he, (Option.some.inj h).symm⟩)
  · rw [if_neg he, Option.ite_none_right_eq_some] at h
    exact .inr (.inr ⟨h.1, (Option.some.inj h.2).symm⟩)

theorem floating?_fits (h : floating? t = some n) : Fits t n := by
  have hw := digits_le t
  rcases floating?_cases h with ⟨hp, rfl⟩ | ⟨he, rfl⟩ | ⟨hs, rfl⟩
  · have hlt := Text.beginsWith_drop_lt hp.1
    have hrun := run_drop_le isDigitOrUnderscore (t := t) (n := digits t + 1) hlt
    exact withSuffix_fits ⟨by omega, exponent_le hrun⟩
  · exact withSuffix_fits ⟨by omega, exponent_le hw⟩
  · exact ⟨Nat.succ_pos _, Text.beginsWith_drop_lt hs⟩

theorem based?_fits {marker : CodePoint → Bool} (h : based? marker p t = some n) : Fits t n := by
  simp only [based?, Option.ite_none_right_eq_some, Bool.and_eq_true, Option.some.injEq] at h
  obtain ⟨⟨-, hp⟩, rfl⟩ := h
  have hlt := Text.beginsWith_drop_lt hp
  exact ⟨by omega, run_drop_le p (by omega)⟩

/-- The length of a decimal literal without its suffix. -/
def decimal? (t : Text) : Option Nat :=
  match digits t with
  | 0 => none
  | n + 1 => some (n + 1)

/-- The length of an integer literal without its suffix. -/
def whole? (t : Text) : Option Nat :=
  based? (isLetter 'x' 'X') isHex t <|> based? (isLetter 'b' 'B') isBinary t <|> decimal? t

theorem integer?_eq (t : Text) :
    integer? t = (whole? t).map fun n => withSuffix isLongSuffix n t := rfl

/-- An integer literal is in base sixteen, two or ten. -/
theorem whole?_cases (h : whole? t = some n) :
    based? (isLetter 'x' 'X') isHex t = some n ∨ based? (isLetter 'b' 'B') isBinary t = some n ∨
      digits t = n ∧ 0 < n := by
  simp only [whole?, Option.orElse_eq_orElse, Option.orElse_eq_or, Option.or_eq_some_iff] at h
  rcases h with h | ⟨-, h | ⟨-, h⟩⟩
  · exact .inl h
  · exact .inr (.inl h)
  · rw [decimal?] at h
    split at h
    · cases h
    · rename_i k hk
      obtain rfl := Option.some.inj h
      exact .inr (.inr ⟨hk, Nat.succ_pos k⟩)

theorem integer?_fits (h : integer? t = some n) : Fits t n := by
  rw [integer?_eq, Option.map_eq_some_iff] at h
  obtain ⟨m, hm, rfl⟩ := h
  refine withSuffix_fits ?_
  rcases whole?_cases hm with hm | hm | ⟨rfl, hpos⟩
  · exact based?_fits hm
  · exact based?_fits hm
  · exact ⟨hpos, digits_le t⟩

theorem isIdentifierPart_of_isIdentifierStart {c : CodePoint} (h : isIdentifierStart c = true) :
    isIdentifierPart c = true := by
  simp only [isIdentifierStart, isIdentifierPart, Bool.or_eq_true, Bool.and_eq_true] at h ⊢
  exact h.imp And.left id

theorem word?_fits (h : word? t = some n) : Fits t n := by
  simp only [word?, Option.ite_none_right_eq_some, Option.some.injEq] at h
  obtain ⟨hp, rfl⟩ := h
  obtain ⟨c, rest, rfl, hc⟩ := Text.beginsWith_iff.mp hp
  exact ⟨run_pos (isIdentifierPart_of_isIdentifierStart hc), run_le _ _⟩

theorem closing?_fits {mark : Char} (h : closing? mark t = some n) : Fits t n := by
  fun_induction closing? mark t generalizing n with
  | case1 | case3 | case4 | case5 => cases h
  | case2 =>
    obtain rfl := Option.some.inj h
    simp [Fits]
  | case6 _ _ _ _ _ ih =>
    obtain ⟨m, hm, rfl⟩ := Option.map_eq_some_iff.mp h
    have := ih hm
    simp only [Fits, List.length_cons] at this ⊢
    omega
  | case7 _ _ _ _ _ ih =>
    obtain ⟨m, hm, rfl⟩ := Option.map_eq_some_iff.mp h
    have := ih hm
    simp only [Fits, List.length_cons] at this ⊢
    omega

theorem quoted?_fits {mark : Char} (h : quoted? mark t = some n) : Fits t n := by
  simp only [quoted?, Option.ite_none_right_eq_some] at h
  obtain ⟨hp, h⟩ := h
  obtain ⟨c, rest, rfl, -⟩ := Text.beginsWith_iff.mp hp
  obtain ⟨m, hm, rfl⟩ := Option.map_eq_some_iff.mp h
  have := closing?_fits hm
  simp only [Fits, List.drop_succ_cons, List.drop_zero, List.length_cons] at this ⊢
  omega

theorem commentEnd?_fits (h : commentEnd? t = some n) : Fits t n := by
  fun_induction commentEnd? t generalizing n with
  | case1 => cases h
  | case2 c rest hc =>
    obtain rfl := Option.some.inj h
    rw [Bool.and_eq_true] at hc
    obtain ⟨d, rest, rfl, -⟩ := Text.beginsWith_iff.mp hc.2
    simp [Fits]
  | case3 c rest hc ih =>
    obtain ⟨m, hm, rfl⟩ := Option.map_eq_some_iff.mp h
    have := ih hm
    simp only [Fits, List.length_cons] at this ⊢
    omega

/-- What is skipped is white space, a comment up to the end of its line, or one up to its closing
mark. -/
theorem layout?_cases (h : layout? t = some n) :
    Text.beginsWith isSpace t = true ∧ n = run isSpace t ∨
    (∃ rest, t = CodePoint.ofChar '/' :: CodePoint.ofChar '/' :: rest ∧ n = run (· != '\n') t) ∨
    ∃ rest m, t = CodePoint.ofChar '/' :: CodePoint.ofChar '*' :: rest ∧
      commentEnd? rest = some m ∧ n = m + 2 := by
  have hopening : ∀ {c : CodePoint},
      (Text.beginsWith (· == '/') t && Text.beginsWith (· == c) (t.drop 1)) = true →
      ∃ rest, t = CodePoint.ofChar '/' :: c :: rest := by
    intro c hb
    rw [Bool.and_eq_true] at hb
    obtain ⟨d, t, rfl, hd⟩ := Text.beginsWith_iff.mp hb.1
    obtain ⟨e, rest, he, hc⟩ := Text.beginsWith_iff.mp hb.2
    obtain rfl : t = e :: rest := he
    exact ⟨rest, by rw [eq_of_beq hd, eq_of_beq hc]⟩
  rw [layout?] at h
  split at h
  · rename_i hs
    exact .inl ⟨hs, (Option.some.inj h).symm⟩
  · split at h
    · rename_i hb
      obtain ⟨rest, rfl⟩ := hopening hb
      exact .inr (.inl ⟨rest, rfl, (Option.some.inj h).symm⟩)
    · rw [Option.ite_none_right_eq_some] at h
      obtain ⟨rest, rfl⟩ := hopening h.1
      obtain ⟨m, hm, rfl⟩ := Option.map_eq_some_iff.mp h.2
      exact .inr (.inr ⟨rest, m, rfl, hm, rfl⟩)

theorem layout?_fits (h : layout? t = some n) : Fits t n := by
  rcases layout?_cases h with ⟨hs, rfl⟩ | ⟨rest, rfl, rfl⟩ | ⟨rest, m, rfl, hm, rfl⟩
  · exact ⟨run_pos hs, run_le _ t⟩
  · exact ⟨run_pos rfl, run_le _ _⟩
  · have hend := (commentEnd?_fits hm).2
    exact ⟨by omega, Nat.add_le_add_right hend 2⟩

theorem mark?_fits {m : Mark} (h : mark? t = some m) : Fits t m.text.length := by
  have hp := List.find?_some h
  have hle := (List.isPrefixOf_iff_prefix.mp hp).length_le
  have hpos : 0 < m.text.length := by cases m <;> decide
  exact ⟨hpos, hle⟩

/-- A lexeme takes at least one character and no more than there are. -/
theorem lexeme?_fits {k : LexemeClass} (h : lexeme? t = some (k, n)) : Fits t n := by
  simp only [lexeme?, Option.orElse_eq_orElse, Option.orElse_eq_or, Option.or_eq_some_iff,
    Option.map_eq_some_iff, Prod.mk.injEq] at h
  rcases h with ⟨_, h, -, rfl⟩ | ⟨-, ⟨_, h, -, rfl⟩ | ⟨-, ⟨_, h, -, rfl⟩ | ⟨-, ⟨_, h, -, rfl⟩ | ⟨-,
    ⟨_, h, -, rfl⟩ | ⟨-, ⟨_, h, -, rfl⟩ | ⟨-, ⟨_, h, -, rfl⟩⟩⟩⟩⟩⟩⟩
  · exact floating?_fits h
  · exact layout?_fits h
  · exact integer?_fits h
  · exact word?_fits h
  · exact quoted?_fits h
  · exact quoted?_fits h
  · exact mark?_fits h

end Java.Lexer

namespace Java

/-- From the place `p` on, the text is read as the tokens, and `unread` is left. -/
inductive Scans : Position → Text → List Token → Text → Prop where
  | done {p : Position} : Scans p [] [] []
  | stuck {p : Position} {t : Text} : t ≠ [] → Lexer.lexeme? t = none → Scans p t [] t
  | layout {p : Position} {x rest unread : Text} {tokens : List Token} :
    Lexer.lexeme? (x ++ rest) = some (.layout, x.length) →
    Scans (p.advance x) rest tokens unread → Scans p (x ++ rest) tokens unread
  | token {p : Position} {x rest unread : Text} {k : Terminal} {tokens : List Token} :
    Lexer.lexeme? (x ++ rest) = some (.token k, x.length) →
    Scans (p.advance x) rest tokens unread →
    Scans p (x ++ rest) (⟨⟨k, x⟩, p⟩ :: tokens) unread

/-- The characters of a lexeme that has been read are passed over. -/
theorem Scan.from_append (p : Position) (x rest : Text) :
    Scan.from_ p x.length (x ++ rest) = Scan.from_ (p.advance x) 0 rest := by
  induction x generalizing p with
  | nil => rfl
  | cons c x ih =>
    rw [List.length_cons, List.cons_append, Scan.from_]
    exact ih (p.step c)

namespace Scan
variable {p : Position} {x rest : Text}

theorem exists_cons_of_lexeme? {k : LexemeClass} (h : Lexer.lexeme? (x ++ rest) = some (k, x.length)) :
    ∃ c y, x = c :: y := by
  cases x with
  | nil => exact absurd (Lexer.lexeme?_fits h).1 (Nat.lt_irrefl 0)
  | cons c y => exact ⟨c, y, rfl⟩

theorem from_layout (h : Lexer.lexeme? (x ++ rest) = some (.layout, x.length)) :
    from_ p 0 (x ++ rest) = from_ (p.advance x) 0 rest := by
  obtain ⟨c, y, rfl⟩ := exists_cons_of_lexeme? h
  rw [List.cons_append] at h ⊢
  rw [from_]
  simp only [h]
  exact from_append (p.step c) y rest

theorem from_token {k : Terminal} (h : Lexer.lexeme? (x ++ rest) = some (.token k, x.length)) :
    from_ p 0 (x ++ rest) =
      ⟨⟨⟨k, x⟩, p⟩ :: (from_ (p.advance x) 0 rest).tokens, (from_ (p.advance x) 0 rest).unread⟩ := by
  obtain ⟨c, y, rfl⟩ := exists_cons_of_lexeme? h
  rw [List.cons_append] at h ⊢
  rw [from_]
  simp only [h]
  have hy : from_ (p.step c) ((c :: y).length - 1) (y ++ rest) =
      from_ (p.advance (c :: y)) 0 rest := from_append (p.step c) y rest
  rw [hy, ← List.cons_append, List.take_left]

end Scan

theorem scans_from (p : Position) (t : Text) :
    Scans p t (Scan.from_ p 0 t).tokens (Scan.from_ p 0 t).unread := by
  induction hn : t.length using Nat.strongRecOn generalizing p t with
  | _ n ih =>
    cases h : Lexer.lexeme? t with
    | none =>
      cases t with
      | nil => exact .done
      | cons c rest =>
        rw [Scan.from_]
        simp only [h]
        exact .stuck (List.cons_ne_nil c rest) h
    | some read =>
      obtain ⟨k, m⟩ := read
      obtain ⟨hpos, hle⟩ := Lexer.lexeme?_fits h
      have hm : (t.take m).length = m := by
        rw [List.length_take]
        omega
      have hrest := ih (t.drop m).length (by rw [List.length_drop]; omega)
        (p.advance (t.take m)) (t.drop m) rfl
      generalize hx : t.take m = x at hm hrest
      generalize hy : t.drop m = rest at hrest
      have ht : t = x ++ rest := by rw [← hx, ← hy, List.take_append_drop]
      subst ht hm
      cases k with
      | layout =>
        rw [Scan.from_layout h]
        exact .layout h hrest
      | token k =>
        rw [Scan.from_token h]
        exact .token h hrest

theorem scans_scan (t : Text) : Scans .start t (scan t).tokens (scan t).unread :=
  scans_from .start t

/-- A text can be read in one way only. -/
theorem Scans.from_eq {p : Position} {t unread : Text} {tokens : List Token}
    (h : Scans p t tokens unread) : Scan.from_ p 0 t = ⟨tokens, unread⟩ := by
  induction h with
  | done => rfl
  | @stuck p t hne h =>
    obtain ⟨c, rest, rfl⟩ := List.exists_cons_of_ne_nil hne
    rw [Scan.from_]
    simp only [h]
  | layout h _ ih => rw [Scan.from_layout h, ih]
  | token h _ ih => rw [Scan.from_token h, ih]

theorem scan_eq_iff {t unread : Text} {tokens : List Token} :
    scan t = ⟨tokens, unread⟩ ↔ Scans .start t tokens unread := by
  constructor
  · intro h
    have := scans_scan t
    rwa [h] at this
  · exact Scans.from_eq

end Java

end MemberAccess
