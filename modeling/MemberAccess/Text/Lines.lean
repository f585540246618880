import MemberAccess.Text.Blank

/-!
# Lines, indentation and positions

Two notions of line meet here. Indentation works on the lines of printed text, which many characters
end; a position in Java text counts line feeds alone.
-/

namespace MemberAccess

namespace CodePoint

def lineBoundaryRanges : List (Nat × Nat) :=
  [(0x0A, 0x0D), (0x1C, 0x1E), (0x85, 0x85), (0x2028, 0x2029)]

/-- A character that ends a line of printed text. -/
def isLineBoundary (c : CodePoint) : Bool := c.inRanges lineBoundaryRanges

end CodePoint

namespace Text

/-- The lines of a printed text, each with the boundary that ends it. A carriage return and the
line feed after it are one boundary. -/
def lines : Text → List Text
  | [] => []
  | c :: rest =>
    if c.isLineBoundary && !(c = '\r' && beginsWith (· == '\n') rest) then
      [c] :: lines rest
    else
      match lines rest with
      | [] => [[c]]
      | line :: more => (c :: line) :: more

/-- Puts `margin` before each line that is not blank. -/
def indent (margin t : Text) : Text :=
  (lines t).flatMap fun line => if line.isBlank then line else margin ++ line

/-- The columns that a text takes up when it begins at `column` and tab stops are eight apart. A
line feed or carriage return counts as one column and begins the count of tab stops anew. -/
def widthFrom (column : Nat) : Text → Nat
  | [] => 0
  | c :: rest =>
    if c = '\t' then
      let step := 8 - column % 8
      step + widthFrom (column + step) rest
    else if c = '\n' || c = '\r' then
      1 + widthFrom 0 rest
    else
      1 + widthFrom (column + 1) rest

def width (t : Text) : Nat := widthFrom 0 t

end Text

/-- A place in a text. Lines and columns count from one, and a tab is one column. -/
structure Position where
  line : Nat
  column : Nat
  deriving DecidableEq, Repr

namespace Position

def start : Position := ⟨1, 1⟩

/-- The place after a character: a line feed begins a new line. -/
def step (p : Position) (c : CodePoint) : Position :=
  if c = '\n' then ⟨p.line + 1, 1⟩ else ⟨p.line, p.column + 1⟩

def advance (p : Position) (t : Text) : Position := t.foldl step p

end Position

end MemberAccess
