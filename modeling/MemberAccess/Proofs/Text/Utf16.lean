import MemberAccess.Text.Basic

/-!
# UTF-16

A text seen as the sequence of its UTF-16 code units. A character and the surrogate pair that encodes
it are the same two units.
-/

namespace MemberAccess

/-- The code units of a character, each as a code point of its own. -/
def CodePoint.utf16 (c : CodePoint) : Text :=
  if c.toNat < 0x10000 then [c]
  else
    [.ofNat (0xD800 + (c.toNat - 0x10000) / 0x400), .ofNat (0xDC00 + (c.toNat - 0x10000) % 0x400)]

namespace Text

/-- The code units of a text, each as a code point of its own. -/
def utf16 (t : Text) : Text := t.flatMap CodePoint.utf16

@[simp] theorem utf16_nil : utf16 [] = [] := rfl

@[simp] theorem utf16_cons (c : CodePoint) (t : Text) : utf16 (c :: t) = c.utf16 ++ utf16 t := rfl

theorem isHighSurrogate_ofChar (c : Char) : (CodePoint.ofChar c).isHighSurrogate = false := by
  have h : c.toNat < 0xD800 ∨ 0xDFFF < c.toNat ∧ c.toNat < 0x110000 := c.valid
  rw [Bool.eq_false_iff]
  intro hs
  simp only [CodePoint.isHighSurrogate, Bool.and_eq_true, decide_eq_true_eq] at hs
  rw [CodePoint.toNat_ofChar] at hs
  omega

theorem isLowSurrogate_ofChar (c : Char) : (CodePoint.ofChar c).isLowSurrogate = false := by
  have h : c.toNat < 0xD800 ∨ 0xDFFF < c.toNat ∧ c.toNat < 0x110000 := c.valid
  rw [Bool.eq_false_iff]
  intro hs
  simp only [CodePoint.isLowSurrogate, Bool.and_eq_true, decide_eq_true_eq] at hs
  rw [CodePoint.toNat_ofChar] at hs
  omega

theorem toChar_ofChar (c : Char) : (CodePoint.ofChar c).toChar = c := by
  simp [CodePoint.toChar, isHighSurrogate_ofChar, isLowSurrogate_ofChar]

theorem toChars_cons {c : CodePoint} (h : c.isHighSurrogate = false) (t : Text) :
    toChars (c :: t) = c.toChar :: toChars t := by
  cases t with
  | nil => rfl
  | cons d t => simp [toChars, h]

/-- A string can be told from its characters. -/
@[simp] theorem toString_ofString (s : String) : (ofString s).toString = s := by
  have h : ∀ cs : List Char, toChars (cs.map CodePoint.ofChar) = cs := by
    intro cs
    induction cs with
    | nil => rfl
    | cons c cs ih => rw [List.map_cons, toChars_cons (isHighSurrogate_ofChar c), toChar_ofChar, ih]
  rw [toString, ofString, h, String.ofList_toList]

theorem toNat_high {n : Nat} (h : n < 0x110000) :
    (CodePoint.ofNat (0xD800 + (n - 0x10000) / 0x400)).toNat = 0xD800 + (n - 0x10000) / 0x400 :=
  CodePoint.toNat_ofNat (by omega)

theorem toNat_low (n : Nat) :
    (CodePoint.ofNat (0xDC00 + (n - 0x10000) % 0x400)).toNat = 0xDC00 + (n - 0x10000) % 0x400 :=
  CodePoint.toNat_ofNat (by omega)

theorem pairNumber_eq {high low : CodePoint} {n : Nat} (h : 0x10000 ≤ n)
    (hhigh : high.toNat = 0xD800 + (n - 0x10000) / 0x400)
    (hlow : low.toNat = 0xDC00 + (n - 0x10000) % 0x400) : CodePoint.pairNumber high low = n := by
  unfold CodePoint.pairNumber
  omega

/-- A character beyond U+FFFF is what its surrogate pair encodes. -/
theorem toChars_pair {c : Char} (h : 0x10000 ≤ c.toNat) (t : Text) :
    toChars ((CodePoint.ofChar c).utf16 ++ t) = c :: toChars t := by
  have hc : (CodePoint.ofChar c).utf16 = [.ofNat (0xD800 + (c.toNat - 0x10000) / 0x400),
      .ofNat (0xDC00 + (c.toNat - 0x10000) % 0x400)] := if_neg (Nat.not_lt.mpr h)
  have hhigh := toNat_high (CodePoint.ofChar c).isLt
  have hlow := toNat_low c.toNat
  rw [CodePoint.toNat_ofChar] at hhigh
  rw [hc, List.cons_append, List.singleton_append]
  generalize CodePoint.ofNat (0xD800 + (c.toNat - 0x10000) / 0x400) = high at hhigh ⊢
  generalize CodePoint.ofNat (0xDC00 + (c.toNat - 0x10000) % 0x400) = low at hlow ⊢
  have hpair : (high.isHighSurrogate && low.isLowSurrogate) = true := by
    have := (CodePoint.ofChar c).isLt
    simp only [CodePoint.isHighSurrogate, CodePoint.isLowSurrogate, Bool.and_eq_true,
      decide_eq_true_eq]
    rw [CodePoint.toNat_ofChar] at this
    omega
  rw [toChars, if_pos hpair, pairNumber_eq h hhigh hlow, Char.ofNat_toNat]

/-- A string can be told from its code units. -/
theorem toString_utf16 (s : String) : (utf16 (ofString s)).toString = s := by
  have h : ∀ cs : List Char, toChars (utf16 (cs.map CodePoint.ofChar)) = cs := by
    intro cs
    induction cs with
    | nil => rfl
    | cons c cs ih =>
      rw [List.map_cons, utf16_cons]
      by_cases hc : c.toNat < 0x10000
      · rw [CodePoint.utf16, if_pos (by simpa using hc), List.singleton_append,
          toChars_cons (isHighSurrogate_ofChar c), toChar_ofChar, ih]
      · rw [toChars_pair (by omega), ih]
  rw [toString, ofString, h, String.ofList_toList]

end Text

end MemberAccess
