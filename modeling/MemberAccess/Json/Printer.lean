import MemberAccess.Json.Basic
import MemberAccess.Text.Quoted

/-!
# JSON text

The text has one item or member a line, each level indented by the same number of spaces, and ASCII
characters only: other characters are written by their UTF-16 code units.
-/

namespace MemberAccess.Json

/-- A UTF-16 code unit as an escape. -/
def unitEscape (unit : Nat) : Text := "\\u" ++ Text.hex 4 unit

/-- How one character stands in a JSON string. -/
def escapedChar (c : CodePoint) : Text :=
  if c = '"' then "\\\""
  else if c = '\\' then "\\\\"
  else if c = '\n' then "\\n"
  else if c = '\r' then "\\r"
  else if c = '\t' then "\\t"
  else if c = '\x08' then "\\b"
  else if c = '\x0C' then "\\f"
  else if 0x20 ≤ c.toNat ∧ c.toNat < 0x7F then [c]
  else if c.toNat < 0x10000 then unitEscape c.toNat
  else
    let offset := c.toNat - 0x10000
    unitEscape (0xD800 + offset / 0x400) ++ unitEscape (0xDC00 + offset % 0x400)

def stringText (t : Text) : Text := CodePoint.ofChar '"' :: t.flatMap escapedChar ++ "\""

/-- A line feed and the indentation of the next line. -/
def lineBreak (indent level : Nat) : Text := CodePoint.ofChar '\n' :: Text.spaces (indent * level)

/-- Items between brackets, each on a line of its own; nothing stands between empty brackets. -/
def bracketed (indent level : Nat) (opening closing : Text) (items : List Text) : Text :=
  if items.isEmpty then opening ++ closing
  else
    opening ++ lineBreak indent (level + 1) ++
    Text.join ("," ++ lineBreak indent (level + 1)) items ++
    lineBreak indent level ++ closing

mutual

/-- The text of a value at a level of indentation. -/
def renderAt (indent level : Nat) : Json → Text
  | null => "null"
  | bool true => "true"
  | bool false => "false"
  | number n => Text.ofNat n
  | string t => stringText t
  | array items => bracketed indent level "[" "]" (renderItems indent (level + 1) items)
  | object members =>
    bracketed indent level "\x7b" "\x7d" (renderMembers indent (level + 1) members)

def renderItems (indent level : Nat) : List Json → List Text
  | [] => []
  | item :: rest => renderAt indent level item :: renderItems indent level rest

def renderMembers (indent level : Nat) : List (String × Json) → List Text
  | [] => []
  | (key, value) :: rest =>
    (stringText key ++ ": " ++ renderAt indent level value) :: renderMembers indent level rest

end

/-- The text of a value with `indent` spaces for each level. -/
def render (indent : Nat) (value : Json) : Text := renderAt indent 0 value

end MemberAccess.Json
