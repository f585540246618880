import MemberAccess.Java.Terminal

/-!
# Lexemes of Java method text

At each place the first class that matches gives the lexeme: floating-point literals, layout, the
other literals and words, and last the marks. A class is tried without regard to what the grammar
could use there. White space and comments are layout and give no token.
-/

namespace MemberAccess.Java

/-- What a stretch of text is read as. -/
inductive LexemeClass where
  | layout
  | token (t : Terminal)
  deriving DecidableEq, Repr

namespace Lexer

/-- The number of characters at the beginning of `t` that satisfy `p`. -/
def run (p : CodePoint → Bool) (t : Text) : Nat := (t.takeWhile p).length

def isDigitOrUnderscore (c : CodePoint) : Bool := c.isAsciiDigit || c == '_'

def isBinary (c : CodePoint) : Bool := c == '0' || c == '1' || c == '_'

def isHex (c : CodePoint) : Bool :=
  isDigitOrUnderscore c || 0x61 ≤ c.toNat && c.toNat ≤ 0x66 || 0x41 ≤ c.toNat && c.toNat ≤ 0x46

/-- A letter in either case. -/
def isLetter (lower upper : Char) (c : CodePoint) : Bool := c == lower || c == upper

def isSign (c : CodePoint) : Bool := c == '+' || c == '-'

def isFloatSuffix (c : CodePoint) : Bool := isLetter 'f' 'F' c || isLetter 'd' 'D' c

def isLongSuffix (c : CodePoint) : Bool := isLetter 'l' 'L' c

/-- The length of a run of digits and underscores that begins with a digit, zero if there is
none. -/
def digits (t : Text) : Nat :=
  if Text.beginsWith CodePoint.isAsciiDigit t then run isDigitOrUnderscore t else 0

/-- The length of an exponent part, zero if there is none. -/
def exponent (t : Text) : Nat :=
  if Text.beginsWith (isLetter 'e' 'E') t then
    let sign := if Text.beginsWith isSign (t.drop 1) then 1 else 0
    match run CodePoint.isAsciiDigit (t.drop (1 + sign)) with
    | 0 => 0
    | n + 1 => 1 + sign + (n + 1)
  else 0

/-- The length `n`, or one more if a character that satisfies `p` follows. -/
def withSuffix (p : CodePoint → Bool) (n : Nat) (t : Text) : Nat :=
  if Text.beginsWith p (t.drop n) then n + 1 else n

/-- The length of a floating-point literal: digits with a point, an exponent or a suffix. -/
def floating? (t : Text) : Option Nat :=
  let whole := digits t
  let afterWhole := t.drop whole
  if Text.beginsWith (· == '.') afterWhole && (whole != 0 || digits (afterWhole.drop 1) != 0) then
    let fraction := whole + 1 + run isDigitOrUnderscore (afterWhole.drop 1)
    some (withSuffix isFloatSuffix (fraction + exponent (t.drop fraction)) t)
  else if whole = 0 then none
  else if exponent afterWhole != 0 then
    some (withSuffix isFloatSuffix (whole + exponent afterWhole) t)
  else if Text.beginsWith isFloatSuffix afterWhole then some (whole + 1)
  else none

/-- The length of a literal with the base letter `marker` after a zero and digits that satisfy
`p`. -/
def based? (marker p : CodePoint → Bool) (t : Text) : Option Nat :=
  if Text.beginsWith (· == '0') t && Text.beginsWith marker (t.drop 1) &&
      Text.beginsWith p (t.drop 2) then
    some (2 + run p (t.drop 2))
  else none

/-- The length of an integer literal in base sixteen, two or ten. -/
def integer? (t : Text) : Option Nat :=
  let body := based? (isLetter 'x' 'X') isHex t <|> based? (isLetter 'b' 'B') isBinary t <|>
    match digits t with
    | 0 => none
    | n + 1 => some (n + 1)
  body.map fun n => withSuffix isLongSuffix n t

def isIdentifierStart (c : CodePoint) : Bool := c.isWord && !c.isDecimal || c == '$'

def isIdentifierPart (c : CodePoint) : Bool := c.isWord || c == '$'

/-- The length of a word: an identifier or a keyword. -/
def word? (t : Text) : Option Nat :=
  if Text.beginsWith isIdentifierStart t then some (run isIdentifierPart t) else none

/-- The length of the rest of a quoted literal up to and with the closing `mark`. A backslash goes
with the character after it, and no line feed can stand inside. -/
def closing? (mark : Char) : Text → Option Nat
  | [] => none
  | c :: rest =>
    if c = mark then some 1
    else if c = '\n' then none
    else if c = '\\' then
      match rest with
      | [] => none
      | d :: rest => if d = '\n' then none else (closing? mark rest).map (· + 2)
    else (closing? mark rest).map (· + 1)

/-- The length of a literal between two `mark`s. -/
def quoted? (mark : Char) (t : Text) : Option Nat :=
  if Text.beginsWith (· == mark) t then (closing? mark (t.drop 1)).map (· + 1) else none

def isSpace (c : CodePoint) : Bool :=
  c == ' ' || c == '\t' || c == '\n' || c == '\r' || c == '\x0C'

/-- The length of the rest of a block comment up to and with its end. -/
def commentEnd? : Text → Option Nat
  | [] => none
  | c :: rest =>
    if c = '*' && Text.beginsWith (· == '/') rest then some 2 else (commentEnd? rest).map (· + 1)

/-- The length of a stretch of white space or of one complete comment. -/
def layout? (t : Text) : Option Nat :=
  if Text.beginsWith isSpace t then some (run isSpace t)
  else if Text.beginsWith (· == '/') t && Text.beginsWith (· == '/') (t.drop 1) then
    some (run (· != '\n') t)
  else if Text.beginsWith (· == '/') t && Text.beginsWith (· == '*') (t.drop 1) then
    (commentEnd? (t.drop 2)).map (· + 2)
  else none

/-- The longest mark at the beginning of `t`. -/
def mark? (t : Text) : Option Mark := Mark.longestFirst.find? fun m => m.text.isPrefixOf t

/-- A word is the keyword that is written so, or else an identifier. -/
def wordTerminal (word : Text) : Terminal :=
  match Keyword.ofText? word with
  | some k => .keyword k
  | none => .identifier

/-- The class and the length of the lexeme that `t` begins with. -/
def lexeme? (t : Text) : Option (LexemeClass × Nat) :=
  (floating? t).map (LexemeClass.token .floating, ·) <|>
  (layout? t).map (LexemeClass.layout, ·) <|>
  (integer? t).map (LexemeClass.token .integer, ·) <|>
  (word? t).map (fun n => (LexemeClass.token (wordTerminal (t.take n)), n)) <|>
  (quoted? '\'' t).map (LexemeClass.token .character, ·) <|>
  (quoted? '"' t).map (LexemeClass.token .string, ·) <|>
  (mark? t).map (fun m => (LexemeClass.token (.mark m), m.text.length))

end Lexer

/-- The tokens of a text, and what is left of it where no lexeme can be read. -/
structure Scan where
  tokens : List Token
  unread : Text

namespace Scan

/-- Reads tokens from the place `p` on, after `inside` further characters of a lexeme that has been
read already. -/
def from_ (p : Position) (inside : Nat) (t : Text) : Scan :=
  match t with
  | [] => ⟨[], []⟩
  | c :: rest =>
    match inside with
    | n + 1 => from_ (p.step c) n rest
    | 0 =>
      match Lexer.lexeme? (c :: rest) with
      | none => ⟨[], c :: rest⟩
      | some (.layout, n) => from_ (p.step c) (n - 1) rest
      | some (.token terminal, n) =>
        let more := from_ (p.step c) (n - 1) rest
        ⟨⟨⟨terminal, (c :: rest).take n⟩, p⟩ :: more.tokens, more.unread⟩

end Scan

/-- Reads a text from its beginning. -/
def scan (t : Text) : Scan := Scan.from_ .start 0 t

end MemberAccess.Java
