/-!
# Code points and texts

A text is a list of Unicode code points. Surrogates are code points too: an escape in Java text may
denote one half of a pair, which then is a character of its own until the text is written out.
-/

namespace MemberAccess

/-- A Unicode code point, surrogates included. -/
structure CodePoint where
  toNat : Nat
  isLt : toNat < 0x110000
  deriving DecidableEq

namespace CodePoint

/-- The replacement character U+FFFD stands for what cannot be represented. -/
def replacement : CodePoint := ⟨0xFFFD, by omega⟩

instance : Inhabited CodePoint := ⟨replacement⟩

@[ext] theorem ext {c d : CodePoint} (h : c.toNat = d.toNat) : c = d := by
  cases c; cases d; simp_all

/-- The code point with number `n`, or the replacement character if there is none. -/
def ofNat (n : Nat) : CodePoint :=
  if h : n < 0x110000 then ⟨n, h⟩ else replacement

theorem toNat_ofNat {n : Nat} (h : n < 0x110000) : (ofNat n).toNat = n := by
  simp [ofNat, h]

def ofChar (c : Char) : CodePoint where
  toNat := c.toNat
  isLt := by
    have h : c.toNat < 0xD800 ∨ 0xDFFF < c.toNat ∧ c.toNat < 0x110000 := c.valid
    omega

instance : Coe Char CodePoint := ⟨ofChar⟩

@[simp] theorem toNat_ofChar (c : Char) : (ofChar c).toNat = c.toNat := rfl

theorem ofChar_inj {c d : Char} : ofChar c = ofChar d ↔ c = d :=
  ⟨fun h => Char.toNat_inj.mp (congrArg toNat h), congrArg ofChar⟩

/-- The first half of a surrogate pair. -/
def isHighSurrogate (c : CodePoint) : Bool := 0xD800 ≤ c.toNat && c.toNat < 0xDC00

/-- The second half of a surrogate pair. -/
def isLowSurrogate (c : CodePoint) : Bool := 0xDC00 ≤ c.toNat && c.toNat < 0xE000

/-- The number that a surrogate pair encodes. -/
def pairNumber (high low : CodePoint) : Nat :=
  0x10000 + (high.toNat - 0xD800) * 0x400 + (low.toNat - 0xDC00)

/-- The character of a code point; a surrogate has none and gives the replacement character. -/
def toChar (c : CodePoint) : Char :=
  if c.isHighSurrogate || c.isLowSurrogate then '\uFFFD' else Char.ofNat c.toNat

end CodePoint

/-- A text is the sequence of its code points. -/
abbrev Text := List CodePoint

namespace Text

def ofString (s : String) : Text := s.toList.map CodePoint.ofChar

instance : Coe String Text := ⟨ofString⟩

/-- The characters of a text, in which a surrogate pair is the one character that it encodes. -/
def toChars : Text → List Char
  | [] => []
  | [c] => [c.toChar]
  | high :: low :: rest =>
    if high.isHighSurrogate && low.isLowSurrogate then
      Char.ofNat (CodePoint.pairNumber high low) :: toChars rest
    else
      high.toChar :: toChars (low :: rest)

def toString (t : Text) : String := String.ofList (toChars t)

/-- The decimal digits of a number. -/
def ofNat (n : Nat) : Text := (Nat.toDigits 10 n).map CodePoint.ofChar

/-- Whether the text has a first character and it satisfies `p`. -/
def beginsWith (p : CodePoint → Bool) (t : Text) : Bool := (t.head?.map p).getD false

/-- `n` spaces. -/
def spaces (n : Nat) : Text := List.replicate n (CodePoint.ofChar ' ')

/-- The texts one after the other, with `separator` between any two. -/
def join (separator : Text) (parts : List Text) : Text := separator.intercalate parts

end Text

end MemberAccess
