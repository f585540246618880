import Mathlib.Data.List.Forall2
import Mathlib.Data.List.TakeWhile
import Mathlib.Data.Nat.Digits.Defs
import MemberAccess.Java.Escape

/-!
# The form of escapes

An escape is a backslash with letters `u` and four hexadecimal digits after it. What is found after
a backslash is the rest of an escape exactly if it has this form.
-/

namespace MemberAccess.Java

namespace Escape

/-- The character is the hexadecimal digit with the value, in either case. -/
def IsHexDigit (c : CodePoint) (n : Nat) : Prop :=
  (Text.ofString "0123456789abcdef")[n]? = some c ∨ (Text.ofString "0123456789ABCDEF")[n]? = some c

instance (c : CodePoint) (n : Nat) : Decidable (IsHexDigit c n) :=
  inferInstanceAs (Decidable (_ ∨ _))

/-- A backslash, letters `u` and four hexadecimal digits, with the number that the digits write. -/
inductive IsEscape : Text → Nat → Prop where
  | intro {k : Nat} {digits : Text} {values : List Nat} : digits.length = 4 →
    List.Forall₂ IsHexDigit digits values →
    IsEscape ('\\' :: (List.replicate (k + 1) (CodePoint.ofChar 'u') ++ digits))
      (Nat.ofDigits 16 values.reverse)

theorem toNat_lt_of_digit? {c : CodePoint} {n : Nat} (h : digit? c = some n) : c.toNat < 0x67 := by
  unfold digit? at h
  split at h
  · rename_i hc
    simp only [CodePoint.isAsciiDigit, Bool.and_eq_true, decide_eq_true_eq] at hc
    omega
  · split at h
    · rename_i hc
      simp only [Bool.and_eq_true, decide_eq_true_eq] at hc
      omega
    · split at h
      · rename_i hc
        simp only [Bool.and_eq_true, decide_eq_true_eq] at hc
        omega
      · cases h

theorem digit?_eq_some_iff {c : CodePoint} {n : Nat} : digit? c = some n ↔ IsHexDigit c n := by
  constructor
  · intro h
    have hall : ∀ k < 0x67, ∀ m ∈ digit? (CodePoint.ofNat k), IsHexDigit (CodePoint.ofNat k) m := by
      decide
    have hc : CodePoint.ofNat c.toNat = c := by simp [CodePoint.ofNat, c.isLt]
    have := hall c.toNat (toNat_lt_of_digit? h)
    rw [hc] at this
    exact this n h
  · intro h
    have hall : ∀ t ∈ [Text.ofString "0123456789abcdef", Text.ofString "0123456789ABCDEF"],
        ∀ m < 16, ∀ d ∈ t[m]?, digit? d = some m := by decide
    have hlt : ∀ t ∈ [Text.ofString "0123456789abcdef", Text.ofString "0123456789ABCDEF"],
        t[n]? = some c → n < 16 := by
      intro t ht hn
      have hlen : t.length = 16 := by
        have : ∀ t ∈ [Text.ofString "0123456789abcdef", Text.ofString "0123456789ABCDEF"],
            t.length = 16 := by decide
        exact this t ht
      have := (List.getElem?_eq_some_iff.mp hn).1
      omega
    rcases h with h | h
    · exact hall _ (.head _) n (hlt _ (.head _) h) c h
    · exact hall _ (.tail _ (.head _)) n (hlt _ (.tail _ (.head _)) h) c h

theorem number?_eq_some_iff {t : Text} {code : Nat} : number? t = some code ↔
    ∃ digits r values, t = digits ++ r ∧ digits.length = 4 ∧
      List.Forall₂ IsHexDigit digits values ∧ code = Nat.ofDigits 16 values.reverse := by
  constructor
  · intro h
    unfold number? at h
    split at h
    · rename_i a b c d r
      simp only [Option.bind_eq_bind, Option.bind_eq_some_iff, digit?_eq_some_iff,
        Option.pure_def, Option.some.injEq] at h
      obtain ⟨i, hi, j, hj, k, hk, l, hl, rfl⟩ := h
      refine ⟨[a, b, c, d], r, [i, j, k, l], rfl, rfl,
        .cons hi (.cons hj (.cons hk (.cons hl .nil))), ?_⟩
      simp only [List.reverse_cons, List.reverse_nil, List.nil_append, List.cons_append,
        Nat.ofDigits_cons, Nat.ofDigits_nil]
      omega
    · cases h
  · rintro ⟨digits, r, values, rfl, hlen, hd, rfl⟩
    obtain ⟨a, b, c, d, rfl⟩ := List.length_eq_four.mp hlen
    cases hd with
    | cons hi hd => cases hd with
      | cons hj hd => cases hd with
        | cons hk hd => cases hd with
          | cons hl hd =>
            cases hd
            simp only [List.cons_append, number?, digit?_eq_some_iff.mpr hi,
              digit?_eq_some_iff.mpr hj, digit?_eq_some_iff.mpr hk, digit?_eq_some_iff.mpr hl,
              Option.bind_eq_bind, Option.bind_some, Option.pure_def, List.reverse_cons,
              List.reverse_nil, List.nil_append, List.cons_append, Nat.ofDigits_cons,
              Nat.ofDigits_nil]
            congr 1
            omega

theorem not_isHexDigit {c : CodePoint} (h : digit? c = none) (n : Nat) : ¬ IsHexDigit c n := by
  intro hn
  rw [digit?_eq_some_iff.mpr hn] at h
  cases h

theorem exists_isHexDigit {digits : Text} {values : List Nat}
    (h : List.Forall₂ IsHexDigit digits values) : ∀ d ∈ digits, ∃ n, IsHexDigit d n := by
  induction h with
  | nil => simp
  | cons hd _ ih => exact List.forall_mem_cons.mpr ⟨⟨_, hd⟩, ih⟩

/-- A character with a digit at its place ends the letters `u`. -/
theorem takeWhile_isMarker {t : Text} {k : Nat} (h : ∀ d ∈ t.head?, ∃ n, IsHexDigit d n) :
    (List.replicate k (CodePoint.ofChar 'u') ++ t).takeWhile isMarker =
      List.replicate k (CodePoint.ofChar 'u') := by
  have hu : isMarker 'u' = true := by decide
  rw [List.takeWhile_append_of_pos fun c hc => List.eq_of_mem_replicate hc ▸ hu]
  cases t with
  | nil => simp
  | cons d t =>
    have hd : isMarker d = false := by
      obtain ⟨n, hn⟩ := h d rfl
      have hnone : digit? 'u' = none := by decide
      rw [isMarker, beq_eq_false_iff_ne]
      rintro rfl
      exact not_isHexDigit hnone n hn
    simp [hd]

theorem body?_eq_some_iff {t : Text} {n : Nat} {c : CodePoint} : body? t = some (n, c) ↔
    ∃ x r code, t = x ++ r ∧ x.length = n ∧ IsEscape ('\\' :: x) code ∧
      c = CodePoint.ofNat code := by
  constructor
  · intro h
    unfold body? at h
    split at h
    · cases h
    · rename_i k hk
      obtain ⟨code, hcode, he⟩ := Option.map_eq_some_iff.mp h
      obtain ⟨rfl, rfl⟩ := Prod.mk.inj he
      obtain ⟨digits, r, values, hr, hlen, hd, rfl⟩ := number?_eq_some_iff.mp hcode
      have hmarkers : t.takeWhile isMarker = List.replicate (k + 1) (CodePoint.ofChar 'u') := by
        refine List.eq_replicate_iff.mpr ⟨hk, fun d hd => ?_⟩
        have hmark := List.mem_takeWhile_imp hd
        exact eq_of_beq hmark
      have htake : t.takeWhile isMarker = t.take (k + 1) := by
        rw [List.prefix_iff_eq_take.mp (List.takeWhile_prefix isMarker), hk]
      have ht : t = List.replicate (k + 1) (CodePoint.ofChar 'u') ++ (digits ++ r) := by
        rw [← hr, ← hmarkers, htake, List.take_append_drop]
      refine ⟨_, r, _, by rw [ht, List.append_assoc], ?_, .intro hlen hd, rfl⟩
      rw [List.length_append, List.length_replicate, hlen]
  · rintro ⟨x, r, code, rfl, rfl, he, rfl⟩
    generalize hx : CodePoint.ofChar '\\' :: x = e at he
    cases he with
    | @intro k digits values hlen hd =>
      obtain ⟨-, rfl⟩ := List.cons_eq_cons.mp hx
      have hhead : ∀ d ∈ (digits ++ r).head?, ∃ n, IsHexDigit d n := by
        obtain ⟨d, digits, rfl⟩ := List.exists_cons_of_length_eq_add_one hlen
        intro d' hd'
        obtain rfl := Option.some.inj hd'
        exact exists_isHexDigit hd d (.head _)
      have hnumber : number? (digits ++ r) = some (Nat.ofDigits 16 values.reverse) :=
        number?_eq_some_iff.mpr ⟨digits, r, values, rfl, hlen, hd, rfl⟩
      rw [body?, List.append_assoc, takeWhile_isMarker hhead, List.length_replicate]
      simp only [List.drop_left', List.length_replicate, hnumber, Option.map_some,
        List.length_append, hlen]

/-- The character is in no escape. -/
def IsOutside (c : CodePoint) : Prop := ∀ (e : Text) (code : Nat), IsEscape e code → c ∉ e

variable {c : CodePoint} {e : Text} {code : Nat}

theorem isOutside (hb : c ≠ '\\') (hm : isMarker c = false) (hd : digit? c = none) :
    IsOutside c := by
  rintro e code (⟨-, h⟩) hc
  rw [List.mem_cons, List.mem_append] at hc
  rcases hc with hc | hc | hc
  · exact hb hc
  · rw [List.eq_of_mem_replicate hc] at hm
    exact absurd hm (by decide)
  · obtain ⟨n, hn⟩ := exists_isHexDigit h c hc
    exact not_isHexDigit hd n hn

theorem IsOutside.ne_backslash (h : IsOutside c) : c ≠ '\\' := by
  rintro rfl
  have hdigit : IsHexDigit '0' 0 := by decide
  have hzero : IsEscape "\\u0000" 0 := @IsEscape.intro 0 "0000" [0, 0, 0, 0] rfl
    (.cons hdigit (.cons hdigit (.cons hdigit (.cons hdigit .nil))))
  exact h _ _ hzero (.head _)

/-- An escape that begins before such a character ends before it. -/
theorem IsEscape.exists_of_append (h : IsEscape e code) (hc : IsOutside c) {r y z : Text}
    (he : e ++ r = y ++ c :: z) : ∃ y', y = e ++ y' ∧ r = y' ++ c :: z := by
  rcases List.append_eq_append_iff.mp he with hy | ⟨w, rfl, hw⟩
  · exact hy
  · cases w with
    | nil => exact ⟨[], by simp, by simpa using hw.symm⟩
    | cons d w =>
      obtain ⟨rfl, -⟩ := List.cons_eq_cons.mp hw
      exact absurd (by simp) (hc _ _ h)

theorem body?_append_cons (hc : IsOutside c) (y z : Text) : body? (y ++ c :: z) = body? y := by
  refine Option.ext fun (n, d) => ?_
  rw [body?_eq_some_iff, body?_eq_some_iff]
  constructor
  · rintro ⟨x, r, code, he, rfl, hx, rfl⟩
    obtain ⟨y', hy, -⟩ := hx.exists_of_append (y := CodePoint.ofChar '\\' :: y) hc
      (congrArg (CodePoint.ofChar '\\' :: ·) he.symm)
    exact ⟨x, y', code, (List.cons_eq_cons.mp hy).2, rfl, hx, rfl⟩
  · rintro ⟨x, r, code, rfl, rfl, hx, rfl⟩
    exact ⟨x, r ++ c :: z, code, List.append_assoc .., rfl, hx, rfl⟩

end Escape

end MemberAccess.Java
