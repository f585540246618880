import MemberAccess.Text.Word

/-!
# Unicode escapes

A backslash, one or more letters `u` and four hexadecimal digits stand for a character of Java text.
The backslash counts only if an even number of backslashes stands right before it.
-/

namespace MemberAccess.Java

namespace Escape

/-- The value of a hexadecimal digit. -/
def digit? (c : CodePoint) : Option Nat :=
  if c.isAsciiDigit then some (c.toNat - 0x30)
  else if 0x61 ≤ c.toNat && c.toNat ≤ 0x66 then some (c.toNat - 0x61 + 10)
  else if 0x41 ≤ c.toNat && c.toNat ≤ 0x46 then some (c.toNat - 0x41 + 10)
  else none

/-- The number that four hexadecimal digits at the beginning of a text write. -/
def number? : Text → Option Nat
  | a :: b :: c :: d :: _ => do
    let a ← digit? a
    let b ← digit? b
    let c ← digit? c
    let d ← digit? d
    return ((a * 16 + b) * 16 + c) * 16 + d
  | _ => none

def isMarker (c : CodePoint) : Bool := c == 'u'

/-- What comes after a backslash, if it is the rest of an escape: its length and its character. -/
def body? (t : Text) : Option (Nat × CodePoint) :=
  match (t.takeWhile isMarker).length with
  | 0 => none
  | n + 1 => (number? (t.drop (n + 1))).map fun code => (n + 5, CodePoint.ofNat code)

/-- Replaces the escapes in a text. The first `inside` characters belong to an escape that has been
replaced already, and `isOdd` tells whether an odd number of backslashes stands before the text. -/
def replaceFrom (inside : Nat) (isOdd : Bool) : Text → Text
  | [] => []
  | c :: rest =>
    match inside with
    | n + 1 => replaceFrom n false rest
    | 0 =>
      if c = '\\' then
        if isOdd then c :: replaceFrom 0 false rest
        else
          match body? rest with
          | some (length, character) => character :: replaceFrom length false rest
          | none => c :: replaceFrom 0 true rest
      else c :: replaceFrom 0 false rest

end Escape

/-- The text with its escapes replaced by their characters. -/
def unescape (t : Text) : Text := Escape.replaceFrom 0 false t

end MemberAccess.Java
