import MemberAccess.Java.Ast.Basic
import MemberAccess.Proofs.Java.Wording

/-!
# Kinds of literals

The text of a literal shows its kind: quoted literals and words by how they begin, numbers by how
they end, except that the digits of base sixteen are no suffixes. The classes of lexemes agree with
this.
-/

namespace MemberAccess.Java

open Lexer

namespace LiteralKind

/-- A zero and the letter of a base stand at the beginning. -/
def isBased (t : Text) : Bool :=
  Text.beginsWith (· == '0') t &&
    Text.beginsWith (fun c => isLetter 'x' 'X' c || isLetter 'b' 'B' c) (t.drop 1)

/-- A point, the letter of an exponent or the suffix of a double. -/
def isDoubleMark (c : CodePoint) : Bool := c == '.' || isLetter 'e' 'E' c || isLetter 'd' 'D' c

/-- The kind of number that is written `t`. -/
def ofNumber (t : Text) : LiteralKind :=
  if Literal.endsWithLetter 'l' 'L' t then .long
  else if isBased t then .int
  else if Literal.endsWithLetter 'f' 'F' t then .float
  else if t.any isDoubleMark then .double
  else .int

/-- The kind of literal that is written `t`. -/
def ofText (t : Text) : LiteralKind :=
  if t = "null" then .null
  else if t = "true" ∨ t = "false" then .boolean
  else if Text.beginsWith (· == '\'') t then .char
  else if Text.beginsWith (· == '"') t then .string
  else ofNumber t

end LiteralKind

open LiteralKind

variable {p q : CodePoint → Bool} {c : CodePoint} {t x : Text} {m n : Nat}

def isNumberBegin (c : CodePoint) : Bool := c.isAsciiDigit || c == '.'

theorem ofText_of_number (h : Text.beginsWith isNumberBegin t = true) : ofText t = ofNumber t := by
  obtain ⟨c, t, rfl, hc⟩ := Text.beginsWith_iff.mp h
  have hne : ∀ {d : CodePoint}, isNumberBegin d = false → c ≠ d := by
    rintro d hd rfl
    rw [hd] at hc
    cases hc
  have hword : ∀ {d : CodePoint} {y : Text}, isNumberBegin d = false → c :: t ≠ d :: y :=
    fun hd he => hne hd (List.cons.inj he).1
  have hnull : c :: t ≠ Text.ofString "null" := hword (d := 'n') (by decide)
  have htrue : c :: t ≠ Text.ofString "true" := hword (d := 't') (by decide)
  have hfalse : c :: t ≠ Text.ofString "false" := hword (d := 'f') (by decide)
  have hquote : c ≠ CodePoint.ofChar '\'' := hne (by decide)
  have hstring : c ≠ CodePoint.ofChar '"' := hne (by decide)
  simp [ofText, hnull, htrue, hfalse, hquote, hstring]

theorem all_take_run (p : CodePoint → Bool) (t : Text) : (t.take (run p t)).all p = true := by
  have htake : t.take (run p t) = t.takeWhile p :=
    (List.prefix_iff_eq_take.mp (List.takeWhile_prefix p)).symm
  rw [htake, List.all_takeWhile]

theorem all_take_add (h : (t.take m).all p = true) (h' : ((t.drop m).take n).all p = true) :
    (t.take (m + n)).all p = true := by
  rw [List.take_add, List.all_append, h, h']
  rfl

theorem all_take_one (h : ∀ c ∈ t.head?, p c = true) : (t.take 1).all p = true := by
  cases t with
  | nil => rfl
  | cons c t => simpa using h

theorem all_take_mono (hpq : ∀ c, p c = true → q c = true) (h : (t.take n).all p = true) :
    (t.take n).all q = true :=
  List.all_eq_true.mpr fun c hc => hpq c (List.all_eq_true.mp h c hc)

def isFloatingPart (c : CodePoint) : Bool :=
  isDigitOrUnderscore c || isSign c || c == '.' || isLetter 'e' 'E' c || isFloatSuffix c

theorem isFloatingPart_of_digit (c : CodePoint) (h : isDigitOrUnderscore c = true) :
    isFloatingPart c = true := by simp [isFloatingPart, h]

theorem all_take_digits (t : Text) : (t.take (digits t)).all isFloatingPart = true := by
  rw [digits]
  split
  · exact all_take_mono isFloatingPart_of_digit (all_take_run _ t)
  · rfl

theorem all_take_exponent (t : Text) : (t.take (exponent t)).all isFloatingPart = true := by
  simp only [exponent]
  split
  · rename_i hletter
    obtain ⟨c, t, rfl, hc⟩ := Text.beginsWith_iff.mp hletter
    have hone : ((c :: t).take 1).all isFloatingPart = true := by simp [isFloatingPart, hc]
    have hsign : ((c :: t).take (1 + if Text.beginsWith isSign t then 1 else 0)).all
        isFloatingPart = true := by
      split
      · rename_i hs
        refine all_take_add hone (all_take_one fun d hd => ?_)
        obtain ⟨e, t, rfl, he⟩ := Text.beginsWith_iff.mp hs
        obtain rfl : e = d := Option.some.inj hd
        simp [isFloatingPart, he]
      · exact hone
    have hdigits := all_take_run CodePoint.isAsciiDigit
      ((c :: t).drop (1 + if Text.beginsWith isSign t then 1 else 0))
    simp only [List.drop_succ_cons, List.drop_zero] at hdigits ⊢
    split
    · rfl
    · rename_i n hn
      rw [hn] at hdigits
      exact all_take_add hsign (all_take_mono (fun d hd => by
        simp [isFloatingPart, isDigitOrUnderscore, hd]) hdigits)
  · rfl

theorem all_take_withSuffix (hp : ∀ c, p c = true → q c = true) (h : (t.take n).all q = true) :
    (t.take (withSuffix p n t)).all q = true := by
  rw [withSuffix]
  split
  · rename_i hs
    obtain ⟨c, rest, he, hc⟩ := Text.beginsWith_iff.mp hs
    exact all_take_add h (all_take_one fun d hd => by
      rw [he] at hd
      obtain rfl : c = d := Option.some.inj hd
      exact hp c hc)
  · exact h

theorem isFloatingPart_of_suffix (c : CodePoint) (h : isFloatSuffix c = true) :
    isFloatingPart c = true := by simp [isFloatingPart, h]

theorem all_take_floating? (h : floating? t = some n) : (t.take n).all isFloatingPart = true := by
  have hdigits := all_take_digits t
  rcases floating?_cases h with ⟨hpoint, rfl⟩ | ⟨-, rfl⟩ | ⟨hs, rfl⟩
  · obtain ⟨c, rest, he, hc⟩ := Text.beginsWith_iff.mp hpoint.1
    refine all_take_withSuffix isFloatingPart_of_suffix
      (all_take_add (all_take_add (all_take_add hdigits (all_take_one fun d hd => ?_))
        (all_take_mono isFloatingPart_of_digit (all_take_run _ _))) (all_take_exponent _))
    rw [he] at hd
    obtain rfl : c = d := Option.some.inj hd
    simp [isFloatingPart, hc]
  · exact all_take_withSuffix isFloatingPart_of_suffix (all_take_add hdigits (all_take_exponent _))
  · obtain ⟨c, rest, he, hc⟩ := Text.beginsWith_iff.mp hs
    refine all_take_add hdigits (all_take_one fun d hd => ?_)
    rw [he] at hd
    obtain rfl : c = d := Option.some.inj hd
    exact isFloatingPart_of_suffix c hc

theorem any_of_beginsWith_drop (h : Text.beginsWith p (t.drop n) = true) : t.any p = true := by
  obtain ⟨c, rest, he, hc⟩ := Text.beginsWith_iff.mp h
  refine List.any_eq_true.mpr ⟨c, ?_, hc⟩
  exact List.mem_of_mem_drop (he ▸ List.mem_cons_self)

theorem getLast?_of_drop {rest : Text} (h : t.drop n = c :: rest) (hn : t.length = n + 1) :
    t.getLast? = some c := by
  have hlen := congrArg List.length h
  rw [List.length_drop, List.length_cons] at hlen
  obtain rfl : rest = [] := List.length_eq_zero_iff.mp (by omega)
  rw [← List.take_append_drop n t, h, List.getLast?_concat]

/-- A floating-point literal has a suffix of a float or a mark of a double. -/
theorem endsWithLetter_or_any (h : floating? t = some t.length) :
    Literal.endsWithLetter 'f' 'F' t = true ∨ t.any isDoubleMark = true := by
  have hmono : ∀ {p : CodePoint → Bool}, (∀ c, p c = true → isDoubleMark c = true) →
      ∀ {n}, Text.beginsWith p (t.drop n) = true → t.any isDoubleMark = true := by
    intro p hp n hn
    obtain ⟨c, rest, he, hc⟩ := Text.beginsWith_iff.mp hn
    exact any_of_beginsWith_drop (n := n) (Text.beginsWith_iff.mpr ⟨c, rest, he, hp c hc⟩)
  rcases floating?_cases h with ⟨hpoint, -⟩ | ⟨hexp, -⟩ | ⟨hs, hall⟩
  · exact .inr (hmono (fun c hc => by simp [isDoubleMark, hc]) hpoint.1)
  · refine .inr (hmono (p := isLetter 'e' 'E') (fun c hc => by simp [isDoubleMark, hc])
      (n := digits t) ?_)
    cases hletter : Text.beginsWith (isLetter 'e' 'E') (t.drop (digits t)) with
    | true => rfl
    | false => exact absurd (by simp [exponent, hletter]) hexp
  · obtain ⟨c, rest, he, hc⟩ := Text.beginsWith_iff.mp hs
    have hlast := getLast?_of_drop he hall
    rw [isFloatSuffix, Bool.or_eq_true] at hc
    rcases hc with hc | hc
    · left
      simpa [Literal.endsWithLetter, hlast, isLetter] using hc
    · exact .inr (hmono (p := isLetter 'd' 'D') (fun c hc => by simp [isDoubleMark, hc])
        (n := digits t) (by rw [he]; exact hc))

theorem ne_of_getLast? (h : t.all p = true) (hc : p c = false) : t.getLast? ≠ some c := by
  intro hl
  rw [List.all_eq_true.mp h c (List.mem_of_getLast? hl)] at hc
  cases hc

theorem endsWithLetter_eq_false {lower upper : Char} (h : t.all p = true) (hl : p lower = false)
    (hu : p upper = false) : Literal.endsWithLetter lower upper t = false := by
  simp [Literal.endsWithLetter, ne_of_getLast? h hl, ne_of_getLast? h hu]

theorem isBased_eq_false (h : t.all p = true)
    (hp : ∀ c, p c = true → (isLetter 'x' 'X' c || isLetter 'b' 'B' c) = false) :
    isBased t = false := by
  rw [isBased, Bool.and_eq_false_iff]
  right
  rw [Bool.eq_false_iff]
  intro hb
  obtain ⟨c, rest, he, hc⟩ := Text.beginsWith_iff.mp hb
  rw [hp c (List.all_eq_true.mp h c (List.mem_of_mem_drop (he ▸ List.mem_cons_self)))] at hc
  cases hc

theorem not_base_of_isFloatingPart (c : CodePoint) (h : isFloatingPart c = true) :
    (isLetter 'x' 'X' c || isLetter 'b' 'B' c) = false := by
  rw [Bool.eq_false_iff]
  intro hc
  have hletters : ∀ d ∈ [CodePoint.ofChar 'x', CodePoint.ofChar 'X', CodePoint.ofChar 'b',
      CodePoint.ofChar 'B'], isFloatingPart d = false := by decide
  have hmem : c ∈ [CodePoint.ofChar 'x', CodePoint.ofChar 'X', CodePoint.ofChar 'b',
      CodePoint.ofChar 'B'] := by
    simpa [isLetter, or_assoc] using hc
  rw [hletters c hmem] at h
  cases h

theorem ofNumber_floating (h : floating? t = some t.length) :
    ofNumber t = (Literal.ofFloating t).kind := by
  have hall := all_take_floating? h
  rw [List.take_length] at hall
  have hlong : Literal.endsWithLetter 'l' 'L' t = false :=
    endsWithLetter_eq_false hall (by decide) (by decide)
  have hbased := isBased_eq_false hall not_base_of_isFloatingPart
  rw [ofNumber, hlong, hbased, Literal.ofFloating]
  cases hf : Literal.endsWithLetter 'f' 'F' t with
  | true => rfl
  | false =>
    have hany := (endsWithLetter_or_any h).resolve_left (by simp [hf])
    simp [hany]

theorem isBased_of_based? {marker : CodePoint → Bool}
    (hm : ∀ c, marker c = true → (isLetter 'x' 'X' c || isLetter 'b' 'B' c) = true)
    (h : based? marker p t = some n) : isBased t = true := by
  simp only [based?, Option.ite_none_right_eq_some, Bool.and_eq_true] at h
  obtain ⟨⟨⟨hz, hmark⟩, -⟩, -⟩ := h
  obtain ⟨c, rest, he, hc⟩ := Text.beginsWith_iff.mp hmark
  rw [isBased, hz, he, Text.beginsWith_cons, hm c hc]
  rfl

/-- An integer literal has the suffix of a long, the letter of a base, or digits alone. -/
theorem integer?_cases (h : integer? t = some t.length) :
    Literal.endsWithLetter 'l' 'L' t = true ∨ isBased t = true ∨
      t.all isDigitOrUnderscore = true := by
  rw [integer?_eq] at h
  obtain ⟨n, hn, hlen⟩ := Option.map_eq_some_iff.mp h
  rcases whole?_cases hn with hn | hn | ⟨rfl, -⟩
  · exact .inr (.inl (isBased_of_based? (fun c hc => by simp [hc]) hn))
  · exact .inr (.inl (isBased_of_based? (fun c hc => by simp [hc]) hn))
  · rw [withSuffix] at hlen
    split at hlen
    · rename_i hs
      obtain ⟨c, rest, he, hc⟩ := Text.beginsWith_iff.mp hs
      left
      simpa [Literal.endsWithLetter, getLast?_of_drop he hlen.symm, isLongSuffix, isLetter] using hc
    · right; right
      have hle := digits_le_run t
      have hrun : run isDigitOrUnderscore t = t.length :=
        Nat.le_antisymm (run_le _ t) (by omega)
      have hall := all_take_run isDigitOrUnderscore t
      rwa [hrun, List.take_length] at hall

theorem ofNumber_integer (h : integer? t = some t.length) :
    ofNumber t = (Literal.ofInteger t).kind := by
  rw [ofNumber, Literal.ofInteger]
  cases hl : Literal.endsWithLetter 'l' 'L' t with
  | true => rfl
  | false =>
    rcases (integer?_cases h).resolve_left (by simp [hl]) with hb | hall
    · simp [hb]
    · have hbased := isBased_eq_false hall (fun c hc =>
        not_base_of_isFloatingPart c (isFloatingPart_of_digit c hc))
      have hfloat : Literal.endsWithLetter 'f' 'F' t = false :=
        endsWithLetter_eq_false hall (by decide) (by decide)
      have hany : t.any isDoubleMark = false := by
        rw [List.any_eq_false]
        intro c hc hm
        have hd := List.all_eq_true.mp hall c hc
        have hmarks : ∀ d ∈ [CodePoint.ofChar '.', CodePoint.ofChar 'e', CodePoint.ofChar 'E',
            CodePoint.ofChar 'd', CodePoint.ofChar 'D'], isDigitOrUnderscore d = false := by decide
        have hmem : c ∈ [CodePoint.ofChar '.', CodePoint.ofChar 'e', CodePoint.ofChar 'E',
            CodePoint.ofChar 'd', CodePoint.ofChar 'D'] := by
          simpa [isDoubleMark, isLetter, or_assoc] using hm
        rw [hmarks c hmem] at hd
        cases hd
      simp [hbased, hfloat, hany]

theorem beginsWith_isNumberBegin {n : Nat} (h : floating? t = some n ∨ integer? t = some n) :
    Text.beginsWith isNumberBegin t = true := by
  cases t with
  | nil => rcases h with h | h <;> cases h
  | cons c t =>
    rw [Text.beginsWith_cons, isNumberBegin, Bool.or_eq_true, beq_iff_eq]
    cases hd : c.isAsciiDigit with
    | true => exact .inl rfl
    | false =>
      right
      rcases h with h | h
      · by_cases hp : c = '.'
        · exact hp
        · rw [floating?_eq_none hd hp] at h
          cases h
      · rw [integer?_eq_none hd] at h
        cases h

def isIntegerPart (c : CodePoint) : Bool := isHex c || isLetter 'x' 'X' c || isLongSuffix c

theorem all_take_based? {marker : CodePoint → Bool} (hq : q '0' = true)
    (hm : ∀ c, marker c = true → q c = true) (hp : ∀ c, p c = true → q c = true)
    (h : based? marker p t = some n) : (t.take n).all q = true := by
  simp only [based?, Option.ite_none_right_eq_some, Bool.and_eq_true, Option.some.injEq] at h
  obtain ⟨⟨⟨hzero, hmarker⟩, -⟩, rfl⟩ := h
  obtain ⟨c, t, rfl, hc⟩ := Text.beginsWith_iff.mp hzero
  obtain rfl := beq_iff_eq.mp hc
  obtain ⟨d, rest, hrest, hd⟩ := Text.beginsWith_iff.mp hmarker
  obtain rfl : t = d :: rest := hrest
  refine all_take_add ?_ (all_take_mono hp (all_take_run p _))
  simp [hq, hm d hd]

theorem all_take_integer? (h : integer? t = some n) : (t.take n).all isIntegerPart = true := by
  have hdigit : ∀ c, isDigitOrUnderscore c = true → isIntegerPart c = true := by
    intro c hc
    simp [isIntegerPart, isHex, hc]
  have hzero : isIntegerPart '0' = true := by decide
  rw [integer?_eq, Option.map_eq_some_iff] at h
  obtain ⟨m, hm, rfl⟩ := h
  refine all_take_withSuffix (fun c hc => by simp [isIntegerPart, hc]) ?_
  rcases whole?_cases hm with hm | hm | ⟨rfl, -⟩
  · exact all_take_based? hzero (fun c hc => by simp [isIntegerPart, hc])
      (fun c hc => by simp [isIntegerPart, hc]) hm
  · refine all_take_based? hzero (fun c hc => ?_) (fun c hc => ?_) hm
    · rw [isLetter, Bool.or_eq_true, beq_iff_eq, beq_iff_eq] at hc
      rcases hc with rfl | rfl <;> decide
    · rw [isBinary, Bool.or_eq_true, Bool.or_eq_true, beq_iff_eq, beq_iff_eq, beq_iff_eq] at hc
      rcases hc with (rfl | rfl) | rfl <;> decide
  · rw [digits]
    split
    · exact all_take_mono hdigit (all_take_run _ t)
    · rfl

/-- The text is one that a lexeme of the terminal has. -/
def IsTextOf : Terminal → Text → Prop
  | .keyword k, x => x = k.text
  | .mark m, x => x = m.text
  | .identifier, x => IsIdentifier x
  | .integer, x => integer? x = some x.length
  | .floating, x => floating? x = some x.length
  | .character, x => IsQuoted '\'' x
  | .string, x => IsQuoted '"' x

theorem isTextOf_wordTerminal (h : IsWord x) : IsTextOf (wordTerminal x) x := by
  cases hk : Keyword.ofText? x with
  | none =>
    have hi : wordTerminal x = .identifier := by rw [wordTerminal, hk]
    rw [hi]
    exact isIdentifier_iff.mpr ⟨h, hi⟩
  | some k =>
    have hi : wordTerminal x = .keyword k := by rw [wordTerminal, hk]
    rw [hi]
    have htext := List.find?_some hk
    exact (of_decide_eq_true htext).symm

theorem Readable.isTextOf {l : Lexeme} (h : Readable l) : IsTextOf l.terminal l.text := by
  obtain ⟨k, x⟩ := l
  obtain ⟨r, h⟩ : ∃ r, ReadBefore r k x := h
  show IsTextOf k x
  have hlength : ∀ {m}, some x.length = some m → m ≤ x.length :=
    fun he => Nat.le_of_eq (Option.some.inj he).symm
  cases h with
  | floating h =>
    rw [← floating?_of_append fun m hm => hlength (h.symm.trans hm)] at h
    exact h
  | integer _ h =>
    rw [← integer?_of_append fun m hm => hlength (h.symm.trans hm)] at h
    exact h
  | word hw _ => exact isTextOf_wordTerminal hw
  | character h => exact h
  | string h => exact h
  | mark => exact rfl

/-- A mark with which a quoted literal or an escape begins. -/
def isLiteralMark (c : CodePoint) : Bool := c == '"' || c == '\'' || c == '\\'

/-- The text holds neither quoted literals nor escapes. -/
def IsPlain (x : Text) : Prop := ∀ c ∈ x, isLiteralMark c = false

instance (x : Text) : Decidable (IsPlain x) := inferInstanceAs (Decidable (∀ c ∈ x, _))

theorem isPlain_of_all (hp : ∀ c, isLiteralMark c = true → p c = false) (h : x.all p = true) :
    IsPlain x := by
  intro c hc
  rw [Bool.eq_false_iff]
  intro hm
  have hall := List.all_eq_true.mp h c hc
  rw [hp c hm] at hall
  cases hall

/-- No lexeme but a quoted literal holds such a mark. -/
theorem IsTextOf.isPlain {k : Terminal} (h : IsTextOf k x) (hk : k ∉ [.character, .string]) :
    IsPlain x := by
  have hmarks : ∀ {p : CodePoint → Bool}, (∀ c ∈ [CodePoint.ofChar '"', CodePoint.ofChar '\'',
      CodePoint.ofChar '\\'], p c = false) → ∀ c, isLiteralMark c = true → p c = false := by
    intro p hp c hc
    exact hp c (by simpa [isLiteralMark, or_assoc] using hc)
  have hword : ∀ c, isLiteralMark c = true → isIdentifierPart c = false :=
    hmarks (by decide +kernel)
  cases k with
  | keyword k => exact (h : x = k.text) ▸ isPlain_of_all hword (isWord_keyword k).2
  | mark m =>
    have hall : ∀ m ∈ Mark.longestFirst, IsPlain m.text := by decide
    exact (h : x = m.text) ▸ hall m (Mark.mem_longestFirst m)
  | identifier =>
    have hi : IsIdentifier x := h
    exact isPlain_of_all hword (isIdentifier_iff.mp hi).1.2
  | integer =>
    have hall := all_take_integer? h
    rw [List.take_length] at hall
    exact isPlain_of_all (hmarks (by decide)) hall
  | floating =>
    have hall := all_take_floating? h
    rw [List.take_length] at hall
    exact isPlain_of_all (hmarks (by decide)) hall
  | character | string => simp at hk

theorem IsPlain.append {y : Text} (hx : IsPlain x) (hy : IsPlain y) : IsPlain (x ++ y) :=
  List.forall_mem_append.mpr ⟨hx, hy⟩

/-- A text that is spelled without quoted literals is plain. -/
theorem Spelled.isPlain {w : List Lexeme} (h : Spelled x w)
    (hw : ∀ l ∈ w, l.terminal ∉ [.character, .string]) : IsPlain x := by
  induction h with
  | nil => exact fun _ hc => by cases hc
  | @space c _ _ hc _ ih =>
    have hs : ∀ d ∈ separators, isLiteralMark d = false := by decide
    exact List.forall_mem_cons.mpr ⟨hs c (mem_separators_of_isSpace hc), ih hw⟩
  | @lexeme k x t _ hk _ ih =>
    rw [List.forall_mem_cons] at hw
    exact (Readable.isTextOf (l := ⟨k, x⟩) ⟨t, hk⟩).isPlain hw.1 |>.append (ih hw.2)

theorem ofText_floating (h : IsTextOf .floating t) : ofText t = (Literal.ofFloating t).kind := by
  rw [ofText_of_number (beginsWith_isNumberBegin (.inl h)), ofNumber_floating h]

theorem ofText_integer (h : IsTextOf .integer t) : ofText t = (Literal.ofInteger t).kind := by
  rw [ofText_of_number (beginsWith_isNumberBegin (.inr h)), ofNumber_integer h]

theorem ofText_character (h : IsTextOf .character t) : ofText t = .char := by
  obtain ⟨u, rfl, -⟩ := h
  rfl

theorem ofText_string (h : IsTextOf .string t) : ofText t = .string := by
  obtain ⟨u, rfl, -⟩ := h
  rfl

end MemberAccess.Java
