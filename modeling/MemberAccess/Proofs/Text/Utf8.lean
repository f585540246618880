import Mathlib.Data.List.Basic
import MemberAccess.Text.Utf8

/-!
# Texts written to files

The bytes of a text are read as the text, so that nothing in it is replaced. A text without carriage
returns is also read as it is if its lines end in one of the three ways.
-/

namespace MemberAccess

namespace Utf8

variable {bytes : List UInt8} {b low high : UInt8} {missing value n v : Nat}

theorem toNat_ofNat_of_lt (h : n < 256) : (UInt8.ofNat n).toNat = n := by
  rw [UInt8.toNat_ofNat', Nat.mod_eq_of_lt h]

/-- What a byte gives at the beginning of a sequence, by its number. -/
theorem lead_ofNat (h : n < 256) :
    lead (UInt8.ofNat n) =
      if n < 0x80 then ([CodePoint.ofNat n], none)
      else if 0xC2 ≤ n ∧ n ≤ 0xDF then ([], some ⟨1, 0x80, 0xBF, n - 0xC0⟩)
      else if n = 0xE0 then ([], some ⟨2, 0xA0, 0xBF, 0⟩)
      else if n = 0xED then ([], some ⟨2, 0x80, 0x9F, 0xD⟩)
      else if 0xE1 ≤ n ∧ n ≤ 0xEF then ([], some ⟨2, 0x80, 0xBF, n - 0xE0⟩)
      else if n = 0xF0 then ([], some ⟨3, 0x90, 0xBF, 0⟩)
      else if 0xF1 ≤ n ∧ n ≤ 0xF3 then ([], some ⟨3, 0x80, 0xBF, n - 0xF0⟩)
      else if n = 0xF4 then ([], some ⟨3, 0x80, 0x8F, 4⟩)
      else ([CodePoint.replacement], none) := by
  have hn := toNat_ofNat_of_lt h
  simp only [lead, UInt8.lt_iff_toNat_lt, UInt8.le_iff_toNat_le, ← UInt8.toNat_inj, hn,
    Bool.and_eq_true, decide_eq_true_eq]
  rfl

/-- A pending sequence can be continued by the byte for six bits. -/
structure Pending.Admits (p : Pending) (n : Nat) : Prop where
  low_le : p.low.toNat ≤ n + 0x80
  le_high : n + 0x80 ≤ p.high.toNat

variable {p : Pending}

theorem Pending.Admits.step_eq (h : p.Admits n) :
    step (some p) (UInt8.ofNat (n + 0x80)) =
      if p.missing = 1 then ([CodePoint.ofNat (p.value * 64 + n)], none)
      else ([], some ⟨p.missing - 1, 0x80, 0xBF, p.value * 64 + n⟩) := by
  have hb := toNat_ofNat_of_lt (Nat.lt_of_le_of_lt h.le_high p.high.toNat_lt)
  have hlow : p.low ≤ UInt8.ofNat (n + 0x80) := by
    rw [UInt8.le_iff_toNat_le, hb]
    exact h.low_le
  have hhigh : UInt8.ofNat (n + 0x80) ≤ p.high := by
    rw [UInt8.le_iff_toNat_le, hb]
    exact h.le_high
  rw [step, decide_eq_true hlow, decide_eq_true hhigh, hb, Nat.add_sub_cancel]
  rfl

theorem admits_of_lt (h : n < 64) : Pending.Admits ⟨missing, 0x80, 0xBF, value⟩ n := by
  refine ⟨?_, ?_⟩
  · exact Nat.le_add_left ..
  · show n + 0x80 ≤ 0xBF
    omega

theorem decodeFrom_one (h : Pending.Admits ⟨1, low, high, value⟩ n) :
    decodeFrom (some ⟨1, low, high, value⟩) (UInt8.ofNat (n + 0x80) :: bytes) =
      CodePoint.ofNat (value * 64 + n) :: decodeFrom none bytes := by
  rw [decodeFrom, h.step_eq]
  rfl

theorem decodeFrom_two {m : Nat} (h : Pending.Admits ⟨2, low, high, value⟩ n) (hm : m < 64) :
    decodeFrom (some ⟨2, low, high, value⟩)
        (UInt8.ofNat (n + 0x80) :: UInt8.ofNat (m + 0x80) :: bytes) =
      CodePoint.ofNat ((value * 64 + n) * 64 + m) :: decodeFrom none bytes := by
  rw [decodeFrom, h.step_eq]
  exact decodeFrom_one (admits_of_lt hm)

theorem decodeFrom_three {m k : Nat} (h : Pending.Admits ⟨3, low, high, value⟩ n) (hm : m < 64)
    (hk : k < 64) :
    decodeFrom (some ⟨3, low, high, value⟩)
        (UInt8.ofNat (n + 0x80) :: UInt8.ofNat (m + 0x80) :: UInt8.ofNat (k + 0x80) :: bytes) =
      CodePoint.ofNat (((value * 64 + n) * 64 + m) * 64 + k) :: decodeFrom none bytes := by
  rw [decodeFrom, h.step_eq]
  exact decodeFrom_two (admits_of_lt hm) hk

theorem lead_two (hlow : 0x80 ≤ v) (hhigh : v < 0x800) :
    lead (UInt8.ofNat (v / 64 + 0xC0)) = ([], some ⟨1, 0x80, 0xBF, v / 64⟩) := by
  rw [lead_ofNat (by omega), if_neg (by omega), if_pos (by omega), Nat.add_sub_cancel]

theorem exists_lead_three (hlow : 0x800 ≤ v) (hhigh : v < 0x10000)
    (hvalid : v < 0xD800 ∨ 0xDFFF < v) :
    ∃ low high, lead (UInt8.ofNat (v / 4096 + 0xE0)) = ([], some ⟨2, low, high, v / 4096⟩) ∧
      Pending.Admits ⟨2, low, high, v / 4096⟩ (v / 64 % 64) := by
  rw [lead_ofNat (by omega), if_neg (by omega), if_neg (by omega)]
  -- After E0 no number fits two bytes, and after ED none is a surrogate's.
  by_cases hE0 : v / 4096 = 0
  · rw [if_pos (by omega), hE0]
    refine ⟨_, _, rfl, ?_, ?_⟩
    · show 0xA0 ≤ _
      omega
    · show _ ≤ 0xBF
      omega
  · rw [if_neg (by omega)]
    by_cases hED : v / 4096 = 0xD
    · rw [if_pos (by omega), hED]
      refine ⟨_, _, rfl, ?_, ?_⟩
      · show 0x80 ≤ _
        omega
      · show _ ≤ 0x9F
        omega
    · rw [if_neg (by omega), if_pos (by omega), Nat.add_sub_cancel]
      exact ⟨_, _, rfl, admits_of_lt (by omega)⟩

theorem exists_lead_four (hlow : 0x10000 ≤ v) (hhigh : v < 0x110000) :
    ∃ low high, lead (UInt8.ofNat (v / 262144 + 0xF0)) = ([], some ⟨3, low, high, v / 262144⟩) ∧
      Pending.Admits ⟨3, low, high, v / 262144⟩ (v / 4096 % 64) := by
  rw [lead_ofNat (by omega), if_neg (by omega), if_neg (by omega), if_neg (by omega),
    if_neg (by omega), if_neg (by omega)]
  -- After F0 no number fits three bytes, and after F4 none is beyond the last character.
  by_cases hF0 : v / 262144 = 0
  · rw [if_pos (by omega), hF0]
    refine ⟨_, _, rfl, ?_, ?_⟩
    · show 0x90 ≤ _
      omega
    · show _ ≤ 0xBF
      omega
  · rw [if_neg (by omega)]
    by_cases hF4 : v / 262144 = 4
    · rw [if_neg (by omega), if_pos (by omega), hF4]
      refine ⟨_, _, rfl, ?_, ?_⟩
      · show 0x80 ≤ _
        omega
      · show _ ≤ 0x8F
        omega
    · rw [if_pos (by omega), Nat.add_sub_cancel]
      exact ⟨_, _, rfl, admits_of_lt (by omega)⟩

theorem ofNat_val (c : Char) (h : n = c.val.toNat) : CodePoint.ofNat n = CodePoint.ofChar c := by
  subst h
  have hvalid : c.val.toNat < 0xD800 ∨ 0xDFFF < c.val.toNat ∧ c.val.toNat < 0x110000 := c.valid
  apply CodePoint.ext
  rw [CodePoint.toNat_ofNat (by omega)]
  rfl

/-- The bytes of a character are read as the character, whatever comes after them. -/
theorem decodeFrom_utf8EncodeChar (c : Char) (bytes : List UInt8) :
    decodeFrom none (String.utf8EncodeChar c ++ bytes) =
      CodePoint.ofChar c :: decodeFrom none bytes := by
  have hvalid : c.val.toNat < 0xD800 ∨ 0xDFFF < c.val.toNat ∧ c.val.toNat < 0x110000 := c.valid
  fun_cases String.utf8EncodeChar c with
  | case1 v h =>
    change v ≤ 0x7f at h
    show decodeFrom none (_ :: bytes) = _
    rw [decodeFrom, step, lead_ofNat (by omega), if_pos (by omega), ← ofNat_val c rfl]
    rfl
  | case2 v h1 h =>
    rw [Nat.mod_eq_of_lt (by omega)]
    show decodeFrom none (_ :: _ :: bytes) = _
    rw [decodeFrom, step, lead_two (by omega) (by omega)]
    show decodeFrom (some _) _ = _
    rw [decodeFrom_one (admits_of_lt (by omega)), ofNat_val c (by omega)]
  | case3 v h1 h2 h =>
    obtain ⟨low, high, hlead, hadmits⟩ :=
      exists_lead_three (v := v) (by omega) (by omega) (by omega)
    rw [Nat.mod_eq_of_lt (a := v / 4096) (by omega)]
    show decodeFrom none (_ :: _ :: _ :: bytes) = _
    rw [decodeFrom, step, hlead]
    show decodeFrom (some _) _ = _
    rw [decodeFrom_two hadmits (by omega), ofNat_val c (by omega)]
  | case4 v h1 h2 h =>
    obtain ⟨low, high, hlead, hadmits⟩ := exists_lead_four (v := v) (by omega) (by omega)
    rw [Nat.mod_eq_of_lt (a := v / 262144) (by omega)]
    show decodeFrom none (_ :: _ :: _ :: _ :: bytes) = _
    rw [decodeFrom, step, hlead]
    show decodeFrom (some _) _ = _
    rw [decodeFrom_three hadmits (by omega) (by omega), ofNat_val c (by omega)]

theorem decode_flatMap_utf8EncodeChar (cs : List Char) :
    decode (cs.flatMap String.utf8EncodeChar) = cs.map CodePoint.ofChar := by
  induction cs with
  | nil => rfl
  | cons c cs ih =>
    rw [List.flatMap_cons, decode, decodeFrom_utf8EncodeChar, List.map_cons, ← ih, decode]

/-- A text is read from its bytes as it was written. -/
theorem decode_toUTF8 (s : String) : decode s.toUTF8.data.toList = Text.ofString s := by
  have hbytes : s.toUTF8.data.toList = s.toList.flatMap String.utf8EncodeChar := by
    rw [String.toUTF8_eq_toByteArray, ← String.utf8Encode_toList, List.utf8Encode]
    simp
  rw [hbytes, decode_flatMap_utf8EncodeChar]
  rfl

end Utf8

namespace Text

/-- How the end of a line is written to a file. -/
inductive LineEnd where
  | lineFeed | returnAndLineFeed | carriageReturn
  deriving DecidableEq

namespace LineEnd

def chars : LineEnd → List Char
  | lineFeed => ['\n']
  | returnAndLineFeed => ['\r', '\n']
  | carriageReturn => ['\r']

/-- The text with the end of every line written in one way. -/
def write (e : LineEnd) (s : String) : String :=
  String.ofList (s.toList.flatMap fun c => if c = '\n' then e.chars else [c])

end LineEnd

variable {e : LineEnd} {afterReturn : Bool}

/-- A line feed that comes next belongs to a carriage return only if lines do not end in carriage
returns alone. -/
theorem unifyNewlines_chars (h : afterReturn = true → e = .carriageReturn) (t : Text) :
    unifyNewlines (e.chars.map CodePoint.ofChar ++ t) afterReturn =
      CodePoint.ofChar '\n' :: unifyNewlines t (e = .carriageReturn) := by
  cases e with
  | carriageReturn => rfl
  | lineFeed | returnAndLineFeed =>
    cases afterReturn with
    | false => rfl
    | true => cases h rfl

theorem unifyNewlines_cons_of_ne {c : Char} (hreturn : c ≠ '\r') (hfeed : c ≠ '\n') (t : Text) :
    unifyNewlines (CodePoint.ofChar c :: t) afterReturn =
      CodePoint.ofChar c :: unifyNewlines t false := by
  rw [unifyNewlines, if_neg (mt CodePoint.ofChar_inj.mp hreturn), if_neg]
  simp [CodePoint.ofChar_inj, hfeed]

/-- After each line that ends in a carriage return, no line feed comes next. -/
theorem unifyNewlines_flatMap (h : afterReturn = true → e = .carriageReturn) {cs : List Char}
    (hcs : '\r' ∉ cs) :
    unifyNewlines ((cs.flatMap fun c => if c = '\n' then e.chars else [c]).map CodePoint.ofChar)
      afterReturn = cs.map CodePoint.ofChar := by
  induction cs generalizing afterReturn with
  | nil => rfl
  | cons c cs ih =>
    rw [List.mem_cons, not_or] at hcs
    rw [List.flatMap_cons, List.map_append]
    by_cases hfeed : c = '\n'
    · subst hfeed
      rw [if_pos rfl, unifyNewlines_chars h, ih (by simp) hcs.2]
      rfl
    · rw [if_neg hfeed, List.map_singleton, List.singleton_append,
        unifyNewlines_cons_of_ne (Ne.symm hcs.1) hfeed, ih (by simp) hcs.2, List.map_cons]

/-- A text is read from a file as it was written, whatever ends its lines there. -/
theorem ofFile_write (e : LineEnd) {s : String} (h : '\r' ∉ s.toList) :
    ofFile (e.write s).toUTF8.data.toList = ofString s := by
  rw [ofFile, Utf8.decode_toUTF8, LineEnd.write, ofString, String.toList_ofList]
  exact unifyNewlines_flatMap (by simp) h

end Text

end MemberAccess
