import MemberAccess.Text.Word

/-!
# White space

White space at the ends of a text can be trimmed. The characters are those of Unicode 14 with a
bidirectional type of separator or a category of space separator.
-/

namespace MemberAccess

namespace CodePoint

def blankRanges : List (Nat × Nat) :=
  [(0x09, 0x0D), (0x1C, 0x20), (0x85, 0x85), (0xA0, 0xA0), (0x1680, 0x1680), (0x2000, 0x200A),
   (0x2028, 0x2029), (0x202F, 0x202F), (0x205F, 0x205F), (0x3000, 0x3000)]

/-- White space of any kind, line boundaries included. -/
def isBlank (c : CodePoint) : Bool := c.inRanges blankRanges

end CodePoint

namespace Text

/-- No character but white space, as in the empty text. -/
def isBlank (t : Text) : Bool := t.all CodePoint.isBlank

def trimStart (t : Text) : Text := t.dropWhile CodePoint.isBlank

def trimEnd (t : Text) : Text := (t.reverse.dropWhile CodePoint.isBlank).reverse

def trim (t : Text) : Text := trimEnd (trimStart t)

end Text

end MemberAccess
