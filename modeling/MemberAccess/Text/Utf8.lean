import MemberAccess.Text.Basic

/-!
# Texts from bytes

Bytes are read as UTF-8. Where they are malformed, each longest beginning of a sequence that could
have been well-formed becomes one replacement character, and so does every other byte.
-/

namespace MemberAccess

namespace Utf8

/-- What a sequence still lacks: the bytes to come, the range the next of them has to lie in, and
the number that the bytes so far amount to. -/
structure Pending where
  missing : Nat
  low : UInt8
  high : UInt8
  value : Nat

/-- What a byte at the beginning of a sequence gives: a code point, or a sequence to be
continued. -/
def lead (b : UInt8) : Text × Option Pending :=
  if b < 0x80 then ([CodePoint.ofNat b.toNat], none)
  else if 0xC2 ≤ b && b ≤ 0xDF then ([], some ⟨1, 0x80, 0xBF, b.toNat - 0xC0⟩)
  else if b = 0xE0 then ([], some ⟨2, 0xA0, 0xBF, 0⟩)
  else if b = 0xED then ([], some ⟨2, 0x80, 0x9F, 0xD⟩)
  else if 0xE1 ≤ b && b ≤ 0xEF then ([], some ⟨2, 0x80, 0xBF, b.toNat - 0xE0⟩)
  else if b = 0xF0 then ([], some ⟨3, 0x90, 0xBF, 0⟩)
  else if 0xF1 ≤ b && b ≤ 0xF3 then ([], some ⟨3, 0x80, 0xBF, b.toNat - 0xF0⟩)
  else if b = 0xF4 then ([], some ⟨3, 0x80, 0x8F, 4⟩)
  else ([CodePoint.replacement], none)

/-- Reads one byte. A byte that does not continue the pending sequence begins anew. -/
def step : Option Pending → UInt8 → Text × Option Pending
  | none, b => lead b
  | some p, b =>
    if p.low ≤ b && b ≤ p.high then
      let value := p.value * 64 + (b.toNat - 0x80)
      if p.missing = 1 then ([CodePoint.ofNat value], none)
      else ([], some ⟨p.missing - 1, 0x80, 0xBF, value⟩)
    else
      let (t, next) := lead b
      (CodePoint.replacement :: t, next)

def decodeFrom (pending : Option Pending) : List UInt8 → Text
  | [] => if pending.isSome then [CodePoint.replacement] else []
  | b :: rest =>
    let (t, next) := step pending b
    t ++ decodeFrom next rest

/-- The text that the bytes stand for. -/
def decode (bytes : List UInt8) : Text := decodeFrom none bytes

end Utf8

namespace Text

/-- Makes each carriage return, with a line feed right after it or not, one line feed. -/
def unifyNewlines (t : Text) (afterReturn : Bool) : Text :=
  match t with
  | [] => []
  | c :: rest =>
    if c = '\r' then CodePoint.ofChar '\n' :: unifyNewlines rest true
    else if c = '\n' && afterReturn then unifyNewlines rest false
    else c :: unifyNewlines rest false

/-- The text of a file: UTF-8 with any of the three conventions for line ends. -/
def ofFile (bytes : List UInt8) : Text := unifyNewlines (Utf8.decode bytes) false

end Text

end MemberAccess
