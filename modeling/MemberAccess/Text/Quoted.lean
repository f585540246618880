import MemberAccess.Text.Printable

/-!
# Quoted texts in messages

A quoted text shows every character that is not printable by its code.
-/

namespace MemberAccess

namespace Text

/-- The lowercase hexadecimal digits of `n`, at least `width` of them. -/
def hex (width n : Nat) : Text :=
  let digits := (Nat.toDigits 16 n).map CodePoint.ofChar
  List.replicate (width - digits.length) (CodePoint.ofChar '0') ++ digits

/-- How one character stands between the quotation marks `mark`. -/
def quotedChar (mark c : CodePoint) : Text :=
  if c = mark || c = '\\' then ['\\', c]
  else if c = '\n' then "\\n"
  else if c = '\r' then "\\r"
  else if c = '\t' then "\\t"
  else if c.isPrintable then [c]
  else if c.toNat < 0x100 then "\\x" ++ hex 2 c.toNat
  else if c.toNat < 0x10000 then "\\u" ++ hex 4 c.toNat
  else "\\U" ++ hex 8 c.toNat

/-- Single quotation marks, unless they occur in the text and double ones do not. -/
def quotationMark (t : Text) : CodePoint :=
  if t.any (· == '\'') && !t.any (· == '"') then '"' else '\''

/-- The text between quotation marks, with escapes for marks, backslashes and what does not
print. -/
def quoted (t : Text) : Text :=
  let mark := quotationMark t
  mark :: t.flatMap (quotedChar mark) ++ [mark]

end Text

end MemberAccess
