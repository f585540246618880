import Mathlib.Data.List.Basic
import MemberAccess.Java.Escape
import MemberAccess.Text.Quoted

/-!
# Digits

Numbers are written in digits, and hexadecimal digits are read back as the number that they were
written for.
-/

namespace MemberAccess

namespace Text

theorem isDigit_of_mem_ofNat {c : CodePoint} {n : Nat} (h : c ∈ ofNat n) :
    c.isAsciiDigit = true := by
  obtain ⟨d, hd, rfl⟩ := List.mem_map.mp h
  have := Nat.isDigit_of_mem_toDigits (by decide) (by decide) hd
  simp only [Char.isDigit, UInt32.le_iff_toNat_le, Bool.and_eq_true, decide_eq_true_eq] at this
  simp only [CodePoint.isAsciiDigit, Bool.and_eq_true, decide_eq_true_eq]
  exact this

theorem ofNat_injective : Function.Injective ofNat := by
  intro n k h
  have hchar : Function.Injective CodePoint.ofChar := fun _ _ => CodePoint.ofChar_inj.mp
  have hdigits := congrArg (Nat.ofDigitChars 10 · 0) (List.map_injective_iff.mpr hchar h)
  simpa [Nat.ofDigitChars_toDigits] using hdigits

/-- The last of two or more hexadecimal digits. -/
theorem hex_succ (width n : Nat) :
    hex (width + 2) n = hex (width + 1) (n / 16) ++ [CodePoint.ofChar (n % 16).digitChar] := by
  by_cases h : n < 16
  · rw [Nat.div_eq_of_lt h, Nat.mod_eq_of_lt h, hex, hex, Nat.toDigits_of_lt_base h,
      Nat.toDigits_zero]
    simp [List.replicate_succ']
  · rw [hex, Nat.toDigits_of_base_le (by decide) (Nat.not_lt.mp h), hex]
    simp

theorem hex_one {n : Nat} (h : n < 16) : hex 1 n = [CodePoint.ofChar n.digitChar] := by
  simp [hex, Nat.toDigits_of_lt_base h]

theorem hex_four {n : Nat} (h : n < 0x10000) :
    hex 4 n = [CodePoint.ofChar (n / 16 / 16 / 16).digitChar,
      CodePoint.ofChar (n / 16 / 16 % 16).digitChar, CodePoint.ofChar (n / 16 % 16).digitChar,
      CodePoint.ofChar (n % 16).digitChar] := by
  rw [hex_succ, hex_succ, hex_succ, hex_one (by omega)]
  rfl

end Text

namespace Java.Escape

theorem digit?_digitChar {n : Nat} (h : n < 16) :
    digit? (CodePoint.ofChar n.digitChar) = some n := by
  have hall : ∀ k : Fin 16, digit? (CodePoint.ofChar k.val.digitChar) = some k.val := by decide
  exact hall ⟨n, h⟩

theorem number?_hex {n : Nat} (h : n < 0x10000) : number? (Text.hex 4 n) = some n := by
  rw [Text.hex_four h, number?]
  simp only [digit?_digitChar (Nat.mod_lt _ (by decide : 16 > 0)),
    digit?_digitChar (show n / 16 / 16 / 16 < 16 by omega), Option.bind_eq_bind, Option.bind_some]
  congr 1
  omega

end Java.Escape

end MemberAccess
