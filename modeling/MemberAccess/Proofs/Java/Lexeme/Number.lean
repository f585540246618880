import MemberAccess.Proofs.Java.Scan

/-!
# Numbers by themselves

A number is one on its own, whatever follows it, and a separator ends it as the end of the text
does.
-/

namespace MemberAccess.Java.Lexer

variable {p : CodePoint → Bool} {c : CodePoint} {u r s : Text} {n m : Nat}

theorem run_append_of_beginsWith (h : Text.beginsWith p r = false) : run p (u ++ r) = run p u := by
  induction u with
  | nil =>
    cases r with
    | nil => rfl
    | cons d r => simp_all [run]
  | cons d u ih =>
    by_cases hd : p d = true
    · simpa [run, hd] using ih
    · simp [run, hd]

theorem run_eq_min (p : CodePoint → Bool) (u r : Text) : run p u = min (run p (u ++ r)) u.length := by
  induction u with
  | nil => simp [run]
  | cons d u ih =>
    by_cases hd : p d = true
    · simp only [run, List.cons_append, List.takeWhile_cons, hd, if_true, List.length_cons] at ih ⊢
      omega
    · simp [run, hd]

theorem run_eq_length (h : u.all p) : run p u = u.length := by
  induction u with
  | nil => rfl
  | cons d u ih => simp_all [run]

theorem all_of_run (h : run p (u ++ r) = u.length) :
    u.all p ∧ Text.beginsWith p r = false := by
  induction u with
  | nil =>
    cases r with
    | nil => simp
    | cons d r =>
      by_cases hd : p d = true
      · simp [run, hd] at h
      · simpa using hd
  | cons d u ih =>
    by_cases hd : p d = true
    · simp only [run, List.cons_append, List.takeWhile_cons, hd, if_true, List.length_cons,
        Nat.add_right_cancel_iff] at h
      simpa [hd] using ih h
    · simp [run, hd] at h

theorem beginsWith_append (hu : u ≠ []) : Text.beginsWith p (u ++ r) = Text.beginsWith p u := by
  obtain ⟨d, u, rfl⟩ := List.exists_cons_of_ne_nil hu
  rfl

theorem beginsWith_drop (h : n < u.length) :
    Text.beginsWith p ((u ++ r).drop n) = Text.beginsWith p (u.drop n) := by
  rw [List.drop_append_of_le_length (Nat.le_of_lt h)]
  apply beginsWith_append
  intro he
  have := congrArg List.length he
  simp only [List.length_drop, List.length_nil] at this
  omega

theorem beginsWith_drop_of_true (h : Text.beginsWith p (u.drop n) = true) :
    Text.beginsWith p ((u ++ r).drop n) = true := by
  rw [beginsWith_drop (Text.beginsWith_drop_lt h)]
  exact h

theorem digits_eq_min (u r : Text) : digits u = min (digits (u ++ r)) u.length := by
  by_cases hu : u = []
  · simp [hu, digits]
  · simp only [digits, beginsWith_append hu]
    split
    · exact run_eq_min _ u r
    · simp

theorem digits_le_run (t : Text) : digits t ≤ run isDigitOrUnderscore t := by
  unfold digits
  split
  · exact Nat.le_refl _
  · exact Nat.zero_le _

theorem run_drop_eq_min (p : CodePoint → Bool) (h : n ≤ u.length) :
    run p (u.drop n) = min (run p ((u ++ r).drop n)) (u.length - n) := by
  rw [List.drop_append_of_le_length h, run_eq_min p (u.drop n) r, List.length_drop]

/-- What is read is read without what follows it. -/
theorem exponent_of_append (h : exponent (u ++ r) ≤ u.length) :
    exponent u = exponent (u ++ r) := by
  by_cases hu : u = []
  · subst hu
    exact (Nat.le_zero.mp h).symm
  have hlen : 0 < u.length := List.length_pos_iff.mpr hu
  simp only [exponent, beginsWith_append hu] at h ⊢
  by_cases he : Text.beginsWith (isLetter 'e' 'E') u = true
  · simp only [he, if_true] at h ⊢
    by_cases hone : u.length = 1
    · have hdrop : u.drop 1 = [] := List.drop_eq_nil_iff.mpr (by omega)
      have hrun : run CodePoint.isAsciiDigit (u.drop (1 + 0)) = 0 := by rw [hdrop]; rfl
      split at h
      · simp_all
      · omega
    · rw [beginsWith_drop (by omega)] at h ⊢
      generalize hk : (if Text.beginsWith isSign (u.drop 1) = true then 1 else 0) = k at h ⊢
      have hk' : k ≤ 1 := by split at hk <;> omega
      have hrun := run_drop_eq_min (r := r) CodePoint.isAsciiDigit (show 1 + k ≤ u.length by omega)
      rw [hrun]
      split at h
      · rename_i hz
        simp [hz]
      · rename_i k' hz
        rw [hz, Nat.min_eq_left (by omega)]
  · simp [he]

theorem le_withSuffix (p : CodePoint → Bool) (n : Nat) (t : Text) : n ≤ withSuffix p n t := by
  unfold withSuffix
  split <;> omega

theorem withSuffix_of_append (h : withSuffix p n (u ++ r) ≤ u.length) :
    withSuffix p n u = withSuffix p n (u ++ r) := by
  unfold withSuffix at h ⊢
  by_cases hp : Text.beginsWith p ((u ++ r).drop n) = true
  · rw [if_pos hp] at h
    rw [beginsWith_drop (by omega)] at hp ⊢
  · have hu : ¬ Text.beginsWith p (u.drop n) = true := fun hu => hp (beginsWith_drop_of_true hu)
    rw [if_neg hp, if_neg hu]

theorem digits_drop_eq_min (h : n ≤ u.length) :
    digits (u.drop n) = min (digits ((u ++ r).drop n)) (u.length - n) := by
  rw [List.drop_append_of_le_length h, digits_eq_min (u.drop n) r, List.length_drop]

theorem exponent_drop_of_append (hn : n ≤ u.length)
    (h : n + exponent ((u ++ r).drop n) ≤ u.length) :
    exponent (u.drop n) = exponent ((u ++ r).drop n) := by
  rw [List.drop_append_of_le_length hn] at h ⊢
  apply exponent_of_append
  rw [List.length_drop]
  omega

theorem lt_withPoint (w : Nat) (t : Text) : w < withPoint w t :=
  Nat.lt_of_lt_of_le (by omega) (le_withSuffix _ _ _)

theorem digits_le_of_floating? (h : floating? u = some m) : digits u ≤ m := by
  rcases floating?_cases h with ⟨-, rfl⟩ | ⟨-, rfl⟩ | ⟨-, rfl⟩
  · exact Nat.le_of_lt (lt_withPoint _ _)
  · exact Nat.le_trans (Nat.le_add_right _ _) (le_withSuffix _ _ _)
  · exact Nat.le_succ _

theorem floating?_eq_none_of_digits (h : u.length ≤ digits u) : floating? u = none := by
  have hdrop : u.drop (digits u) = [] := List.drop_eq_nil_iff.mpr h
  have hpoint : ¬ HasPoint (digits u) u := by simp [HasPoint, hdrop]
  rw [floating?_eq, if_neg hpoint, withoutPoint?, hdrop]
  simp [exponent]

theorem hasPoint_append (h : HasPoint n u) : HasPoint n (u ++ r) := by
  obtain ⟨hp, hd⟩ := h
  have hlt := Text.beginsWith_drop_lt hp
  refine ⟨beginsWith_drop_of_true hp, hd.imp_right fun hd hz => hd ?_⟩
  rw [digits_drop_eq_min (r := r) (by omega), hz, Nat.zero_min]

theorem withPoint_of_append (hpoint : HasPoint n (u ++ r))
    (h : withPoint n (u ++ r) ≤ u.length) : HasPoint n u ∧ withPoint n u = withPoint n (u ++ r) := by
  have hn := Nat.le_trans (le_withSuffix _ _ _) h
  have hle : n + 1 ≤ u.length := by omega
  obtain ⟨hp, hd⟩ := hpoint
  rw [beginsWith_drop (by omega)] at hp
  refine ⟨⟨hp, hd.imp_right fun hd => ?_⟩, ?_⟩
  · have := digits_le_run ((u ++ r).drop (n + 1))
    rw [digits_drop_eq_min (r := r) hle]
    omega
  · have hrun : run isDigitOrUnderscore (u.drop (n + 1)) =
        run isDigitOrUnderscore ((u ++ r).drop (n + 1)) := by
      rw [run_drop_eq_min (r := r) _ hle]
      omega
    simp only [withPoint, hrun] at h ⊢
    rw [exponent_drop_of_append (by omega) hn, withSuffix_of_append h]

theorem withoutPoint?_of_append (hle : n ≤ u.length)
    (h : ∀ m ∈ withoutPoint? n (u ++ r), m ≤ u.length) :
    withoutPoint? n u = withoutPoint? n (u ++ r) := by
  unfold withoutPoint? at h ⊢
  by_cases hz : n = 0
  · rw [if_pos hz, if_pos hz]
  rw [if_neg hz] at h
  rw [if_neg hz, if_neg hz]
  by_cases he : exponent ((u ++ r).drop n) ≠ 0
  · rw [if_pos he] at h
    have hm := h _ rfl
    have heu := exponent_drop_of_append hle (Nat.le_trans (le_withSuffix _ _ _) hm)
    rw [heu, if_pos he, if_pos he, withSuffix_of_append hm]
  · have heu := exponent_drop_of_append (u := u) (r := r) hle (by omega)
    rw [if_neg he] at h
    rw [heu, if_neg he, if_neg he]
    by_cases hs : Text.beginsWith isFloatSuffix ((u ++ r).drop n) = true
    · rw [if_pos hs] at h
      have := h _ rfl
      rw [beginsWith_drop (by omega)]
    · have hsu : ¬ Text.beginsWith isFloatSuffix (u.drop n) = true :=
        fun hsu => hs (beginsWith_drop_of_true hsu)
      rw [if_neg hs, if_neg hsu]

/-- What is a floating-point literal, or is none, does not depend on what follows it. -/
theorem floating?_of_append (h : ∀ m ∈ floating? (u ++ r), m ≤ u.length) :
    floating? u = floating? (u ++ r) := by
  have hw := digits_eq_min u r
  by_cases hle : digits (u ++ r) ≤ u.length
  · rw [Nat.min_eq_left hle] at hw
    rw [floating?_eq] at h
    rw [floating?_eq u, floating?_eq (u ++ r), hw]
    by_cases hpoint : HasPoint (digits (u ++ r)) (u ++ r)
    · rw [if_pos hpoint] at h
      obtain ⟨hu, heq⟩ := withPoint_of_append hpoint (h _ rfl)
      rw [if_pos hpoint, if_pos hu, heq]
    · have hu : ¬ HasPoint (digits (u ++ r)) u := fun hu => hpoint (hasPoint_append hu)
      rw [if_neg hpoint] at h
      rw [if_neg hpoint, if_neg hu, withoutPoint?_of_append hle h]
  · have hnone : floating? (u ++ r) = none := by
      cases hf : floating? (u ++ r) with
      | none => rfl
      | some m =>
        have hm := h m hf
        have := digits_le_of_floating? hf
        omega
    rw [hnone]
    apply floating?_eq_none_of_digits
    omega

theorem based?_of_append {marker : CodePoint → Bool}
    (h : ∀ m ∈ based? marker p (u ++ r), m ≤ u.length) :
    based? marker p u = based? marker p (u ++ r) := by
  unfold based? at h ⊢
  by_cases ht : (Text.beginsWith (· == '0') (u ++ r) && Text.beginsWith marker ((u ++ r).drop 1) &&
      Text.beginsWith p ((u ++ r).drop 2)) = true
  · rw [if_pos ht] at h
    rw [if_pos ht]
    have hm := h _ rfl
    have hpos : 0 < run p ((u ++ r).drop 2) := run_pos (by simp_all)
    have hu : u ≠ [] := List.length_pos_iff.mp (by omega)
    rw [beginsWith_append hu, beginsWith_drop (by omega), beginsWith_drop (by omega)] at ht
    rw [if_pos ht, run_drop_eq_min (r := r) p (by omega), Nat.min_eq_left (by omega)]
  · rw [if_neg ht, if_neg]
    intro hu
    apply ht
    simp only [Bool.and_eq_true] at hu ⊢
    refine ⟨⟨?_, beginsWith_drop_of_true hu.1.2⟩, beginsWith_drop_of_true hu.2⟩
    rw [beginsWith_append]
    · exact hu.1.1
    · rintro rfl
      cases hu.1.1

theorem decimal?_of_append (h : ∀ m ∈ decimal? (u ++ r), m ≤ u.length) :
    decimal? u = decimal? (u ++ r) := by
  have hd : digits u = digits (u ++ r) := by
    rw [digits_eq_min u r]
    unfold decimal? at h
    split at h
    · omega
    · have := h _ rfl
      omega
  rw [decimal?, hd, decimal?]

theorem orElse_congr {a a' b b' : Option Nat} (h : ∀ m ∈ (a' <|> b'), m ≤ n)
    (ha : (∀ m ∈ a', m ≤ n) → a = a') (hb : (∀ m ∈ b', m ≤ n) → b = b') :
    (a <|> b) = (a' <|> b') := by
  cases a' with
  | none =>
    rw [ha (by simp)]
    exact hb h
  | some k =>
    rw [ha h]
    rfl

theorem whole?_of_append (h : ∀ m ∈ whole? (u ++ r), m ≤ u.length) :
    whole? u = whole? (u ++ r) :=
  orElse_congr h based?_of_append fun h => orElse_congr h based?_of_append decimal?_of_append

/-- What is an integer literal, or is none, does not depend on what follows it. -/
theorem integer?_of_append (h : ∀ m ∈ integer? (u ++ r), m ≤ u.length) :
    integer? u = integer? (u ++ r) := by
  rw [integer?_eq] at h
  have hw : whole? u = whole? (u ++ r) := by
    apply whole?_of_append
    intro m hm
    refine Nat.le_trans (le_withSuffix isLongSuffix m (u ++ r)) (h _ ?_)
    rw [hm]
    rfl
  rw [integer?_eq, integer?_eq, hw]
  cases hm : whole? (u ++ r) with
  | none => rfl
  | some m =>
    rw [hm] at h
    rw [Option.map_some, Option.map_some, withSuffix_of_append (h _ rfl)]

/-- Spaces, line boundaries and marks that are no part of longer lexemes, except between quotes. -/
def separators : Text :=
  [' ', '\t', '\n', '\r', '\x0C', '\x0B', '\x1C', '\x1D', '\x1E', '\u0085', '\u2028', '\u2029',
   '(', ')', ',', ';']

theorem lt_of_beginsWith_drop (hp : p c = false) (hn : n ≤ u.length)
    (h : Text.beginsWith p ((u ++ c :: s).drop n) = true) : n < u.length := by
  apply Nat.lt_of_le_of_ne hn
  rintro rfl
  rw [List.drop_left, Text.beginsWith_cons, hp] at h
  cases h

theorem run_drop_le_of_separator (hp : p c = false) (hn : n ≤ u.length) :
    n + run p ((u ++ c :: s).drop n) ≤ u.length := by
  rw [List.drop_append_of_le_length hn, run_append_of_beginsWith (by simpa using hp)]
  exact run_drop_le p hn

theorem withSuffix_le_of_separator (hp : p c = false) (hn : n ≤ u.length) :
    withSuffix p n (u ++ c :: s) ≤ u.length := by
  unfold withSuffix
  split
  · rename_i h
    exact lt_of_beginsWith_drop hp hn h
  · exact hn

theorem mem_separators_of_isSpace (h : isSpace c = true) : c ∈ separators := by
  simp only [isSpace, Bool.or_eq_true, beq_iff_eq] at h
  rcases h with (((rfl | rfl) | rfl) | rfl) | rfl <;> decide

theorem isSpace_eq_false (hp : ∀ d ∈ separators, p d = false) (h : p c = true) :
    isSpace c = false := by
  rw [Bool.eq_false_iff]
  intro hs
  rw [hp c (mem_separators_of_isSpace hs)] at h
  cases h

variable (hc : c ∈ separators)
include hc

theorem digits_le_of_separator : digits (u ++ c :: s) ≤ u.length := by
  have hd : ∀ d ∈ separators, isDigitOrUnderscore d = false := by decide
  have := run_drop_le_of_separator (s := s) (hd c hc) (Nat.zero_le u.length)
  have := digits_le_run (u ++ c :: s)
  rw [List.drop_zero] at *
  omega

theorem exponent_le_of_separator (hn : n ≤ u.length) :
    n + exponent ((u ++ c :: s).drop n) ≤ u.length := by
  have he : ∀ d ∈ separators, isLetter 'e' 'E' d = false := by decide
  have hsign : ∀ d ∈ separators, isSign d = false := by decide
  have hd : ∀ d ∈ separators, d.isAsciiDigit = false := by decide
  simp only [exponent, List.drop_drop]
  by_cases h : Text.beginsWith (isLetter 'e' 'E') ((u ++ c :: s).drop n) = true
  · have hlt := lt_of_beginsWith_drop (he c hc) hn h
    rw [if_pos h]
    generalize hk : (if Text.beginsWith isSign ((u ++ c :: s).drop (n + 1)) = true then 1 else 0) = k
    have hk' : n + (1 + k) ≤ u.length := by
      split at hk
      · rename_i hs
        have := lt_of_beginsWith_drop (hsign c hc) hlt hs
        omega
      · omega
    have := run_drop_le_of_separator (s := s) (hd c hc) hk'
    split
    · omega
    · omega
  · rw [if_neg h]
    exact hn

theorem floating?_le_of_separator (h : floating? (u ++ c :: s) = some m) : m ≤ u.length := by
  have hpoint : ∀ d ∈ separators, (d == '.') = false := by decide
  have hd : ∀ d ∈ separators, isDigitOrUnderscore d = false := by decide
  have hf : ∀ d ∈ separators, isFloatSuffix d = false := by decide
  have hw := digits_le_of_separator (u := u) (s := s) hc
  rcases floating?_cases h with ⟨hp, rfl⟩ | ⟨-, rfl⟩ | ⟨hs, rfl⟩
  · have hlt := lt_of_beginsWith_drop (p := (· == '.')) (hpoint c hc) hw hp.1
    have hrun := run_drop_le_of_separator (s := s) (hd c hc) hlt
    exact withSuffix_le_of_separator (hf c hc) (exponent_le_of_separator hc hrun)
  · exact withSuffix_le_of_separator (hf c hc) (exponent_le_of_separator hc hw)
  · exact lt_of_beginsWith_drop (hf c hc) hw hs

theorem floating?_of_separator : floating? (u ++ c :: s) = floating? u :=
  (floating?_of_append fun _ h => floating?_le_of_separator hc h).symm

theorem based?_le_of_separator {marker : CodePoint → Bool} (hmarker : marker c = false)
    (hp : p c = false) (h : based? marker p (u ++ c :: s) = some m) : m ≤ u.length := by
  have hzero : ∀ d ∈ separators, (d == '0') = false := by decide
  simp only [based?, Option.ite_none_right_eq_some, Bool.and_eq_true, Option.some.injEq] at h
  obtain ⟨⟨⟨h, h'⟩, h''⟩, rfl⟩ := h
  have hlt := lt_of_beginsWith_drop (p := (· == '0')) (hzero c hc) (Nat.zero_le u.length) h
  have hlt' := lt_of_beginsWith_drop hmarker hlt h'
  exact run_drop_le_of_separator hp (Nat.le_of_lt (lt_of_beginsWith_drop hp hlt' h''))

theorem integer?_le_of_separator (h : integer? (u ++ c :: s) = some m) : m ≤ u.length := by
  have hx : ∀ d ∈ separators, isHex d = false := by decide
  have hb : ∀ d ∈ separators, isBinary d = false := by decide
  have hxm : ∀ d ∈ separators, isLetter 'x' 'X' d = false := by decide
  have hbm : ∀ d ∈ separators, isLetter 'b' 'B' d = false := by decide
  have hl : ∀ d ∈ separators, isLongSuffix d = false := by decide
  rw [integer?_eq, Option.map_eq_some_iff] at h
  obtain ⟨k, hk, rfl⟩ := h
  apply withSuffix_le_of_separator (hl c hc)
  rcases whole?_cases hk with hk | hk | ⟨rfl, -⟩
  · exact based?_le_of_separator hc (hxm c hc) (hx c hc) hk
  · exact based?_le_of_separator hc (hbm c hc) (hb c hc) hk
  · exact digits_le_of_separator hc

theorem integer?_of_separator : integer? (u ++ c :: s) = integer? u :=
  (integer?_of_append fun _ h => integer?_le_of_separator hc h).symm

end MemberAccess.Java.Lexer
