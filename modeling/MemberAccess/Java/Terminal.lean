import MemberAccess.Grammar.Basic

/-!
# The terminals of Java method text

Keywords, marks of punctuation and operators, and the classes of words and literals.
-/

namespace MemberAccess.Java

/-- The keywords that can modify a method. -/
inductive ModifierKeyword where
  | public_ | protected_ | private_ | static | final | abstract | synchronized | native | strictfp
  deriving DecidableEq, Repr

/-- The primitive types. -/
inductive Primitive where
  | boolean | byte | short | int | long | char | float | double
  deriving DecidableEq, Repr

/-- The words that are terminals of their own. Other words of Java, such as `for` or `enum`, are
identifiers. -/
inductive Keyword where
  | modifier (m : ModifierKeyword)
  | primitive (p : Primitive)
  | void | true_ | false_ | null
  | extends_ | super | throws
  | if_ | else_ | while_ | try_ | catch_ | finally_ | return_ | throw_
  | instanceof | this | class_ | new
  deriving DecidableEq, Repr

/-- Punctuation and operators. -/
inductive Mark where
  | ellipsis | at_ | dot | comma | semicolon
  | leftParenthesis | rightParenthesis | leftBracket | rightBracket | leftBrace | rightBrace
  | less | greater | lessEqual | greaterEqual | equalEqual | bangEqual | equal
  | question | colon | ampersand | ampersandAmpersand | bar | barBar
  | plus | minus | star | slash | percent | bang
  deriving DecidableEq, Repr

inductive Terminal where
  | keyword (k : Keyword)
  | mark (m : Mark)
  | identifier
  | integer
  | floating
  | character
  | string
  deriving DecidableEq, Repr

abbrev Lexeme := MemberAccess.Lexeme Terminal

abbrev Token := MemberAccess.Token Terminal

namespace ModifierKeyword

def all : List ModifierKeyword :=
  [public_, protected_, private_, static, final, abstract, synchronized, native, strictfp]

theorem mem_all (m : ModifierKeyword) : m ∈ all := by cases m <;> decide

def text : ModifierKeyword → Text
  | public_ => "public"
  | protected_ => "protected"
  | private_ => "private"
  | static => "static"
  | final => "final"
  | abstract => "abstract"
  | synchronized => "synchronized"
  | native => "native"
  | strictfp => "strictfp"

end ModifierKeyword

namespace Primitive

def all : List Primitive := [boolean, byte, short, int, long, char, float, double]

theorem mem_all (p : Primitive) : p ∈ all := by cases p <;> decide

def text : Primitive → Text
  | boolean => "boolean"
  | byte => "byte"
  | short => "short"
  | int => "int"
  | long => "long"
  | char => "char"
  | float => "float"
  | double => "double"

end Primitive

namespace Keyword

def all : List Keyword :=
  ModifierKeyword.all.map modifier ++ Primitive.all.map primitive ++
  [void, true_, false_, null, extends_, super, throws, if_, else_, while_, try_, catch_, finally_,
   return_, throw_, instanceof, this, class_, new]

theorem mem_all (k : Keyword) : k ∈ all := by
  cases k with
  | modifier m => cases m <;> decide
  | primitive p => cases p <;> decide
  | _ => decide

def text : Keyword → Text
  | modifier m => m.text
  | primitive p => p.text
  | void => "void"
  | true_ => "true"
  | false_ => "false"
  | null => "null"
  | extends_ => "extends"
  | super => "super"
  | throws => "throws"
  | if_ => "if"
  | else_ => "else"
  | while_ => "while"
  | try_ => "try"
  | catch_ => "catch"
  | finally_ => "finally"
  | return_ => "return"
  | throw_ => "throw"
  | instanceof => "instanceof"
  | this => "this"
  | class_ => "class"
  | new => "new"

/-- The keyword that is written `t`. -/
def ofText? (t : Text) : Option Keyword := all.find? fun k => k.text = t

end Keyword

namespace Mark

/-- All marks, those of more characters first: where several begin alike, the longest is read. -/
def longestFirst : List Mark :=
  [ellipsis, lessEqual, greaterEqual, equalEqual, bangEqual, ampersandAmpersand, barBar,
   at_, dot, comma, semicolon, leftParenthesis, rightParenthesis, leftBracket, rightBracket,
   leftBrace, rightBrace, less, greater, equal, question, colon, ampersand, bar, plus, minus, star,
   slash, percent, bang]

theorem mem_longestFirst (m : Mark) : m ∈ longestFirst := by cases m <;> decide

def text : Mark → Text
  | ellipsis => "..."
  | at_ => "@"
  | dot => "."
  | comma => ","
  | semicolon => ";"
  | leftParenthesis => "("
  | rightParenthesis => ")"
  | leftBracket => "["
  | rightBracket => "]"
  | leftBrace => "\x7b"
  | rightBrace => "\x7d"
  | less => "<"
  | greater => ">"
  | lessEqual => "<="
  | greaterEqual => ">="
  | equalEqual => "=="
  | bangEqual => "!="
  | equal => "="
  | question => "?"
  | colon => ":"
  | ampersand => "&"
  | ampersandAmpersand => "&&"
  | bar => "|"
  | barBar => "||"
  | plus => "+"
  | minus => "-"
  | star => "*"
  | slash => "/"
  | percent => "%"
  | bang => "!"

/-- The name under which messages show a mark. -/
def name : Mark → Text
  | ellipsis => "ELLIPSIS"
  | at_ => "AT"
  | dot => "DOT"
  | comma => "COMMA"
  | semicolon => "SEMICOLON"
  | leftParenthesis => "LPAR"
  | rightParenthesis => "RPAR"
  | leftBracket => "LSQB"
  | rightBracket => "RSQB"
  | leftBrace => "LBRACE"
  | rightBrace => "RBRACE"
  | less => "LESSTHAN"
  | greater => "MORETHAN"
  | lessEqual => "__ANON_4"
  | greaterEqual => "__ANON_5"
  | equalEqual => "__ANON_2"
  | bangEqual => "__ANON_3"
  | equal => "EQUAL"
  | question => "QMARK"
  | colon => "COLON"
  | ampersand => "AMPERSAND"
  | ampersandAmpersand => "__ANON_1"
  | bar => "VBAR"
  | barBar => "__ANON_0"
  | plus => "PLUS"
  | minus => "MINUS"
  | star => "STAR"
  | slash => "SLASH"
  | percent => "PERCENT"
  | bang => "BANG"

end Mark

namespace Terminal

/-- The name under which messages show a terminal: a keyword by its word in capitals. -/
def name : Terminal → Text
  | keyword k => k.text.map fun c => .ofChar c.toChar.toUpper
  | mark m => m.name
  | identifier => "IDENTIFIER"
  | integer => "INTEGER_LITERAL"
  | floating => "FLOATING_POINT_LITERAL"
  | character => "CHARACTER_LITERAL"
  | string => "STRING_LITERAL"

end Terminal

end MemberAccess.Java
