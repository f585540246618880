import MemberAccess.Java.Escape
import MemberAccess.Json.Basic
import MemberAccess.Proofs.Text.Utf16

/-!
# The grammar of JSON text

What is a JSON text and what value it stands for, with white space anywhere between tokens. Of a
string the UTF-16 code units are known, however it was written.
-/

namespace MemberAccess.Json

/-- White space between tokens. -/
def isBlank (c : CodePoint) : Bool := c == ' ' || c == '\t' || c == '\n' || c == '\r'

/-- What a backslash and a character stand for. -/
def shortEscapes : List (CodePoint × CodePoint) :=
  [('"', '"'), ('\\', '\\'), ('/', '/'), ('b', '\x08'), ('f', '\x0C'), ('n', '\n'), ('r', '\r'),
   ('t', '\t')]

/-- Between quotation marks the text stands for the code units. -/
inductive WrittenUnits : Text → Text → Prop where
  | nil : WrittenUnits [] []
  | plain {c : CodePoint} {t units : Text} :
    0x20 ≤ c.toNat → c ≠ '"' → c ≠ '\\' → WrittenUnits t units →
    WrittenUnits (c :: t) (c.utf16 ++ units)
  | short {c d : CodePoint} {t units : Text} :
    shortEscapes.lookup c = some d → WrittenUnits t units → WrittenUnits ('\\' :: c :: t) (d :: units)
  | unit {digits t units : Text} {n : Nat} :
    digits.length = 4 → Java.Escape.number? digits = some n → WrittenUnits t units →
    WrittenUnits ('\\' :: 'u' :: (digits ++ t)) (.ofNat n :: units)

/-- The number that decimal digits write. -/
def decimal (digits : Text) : Nat := digits.foldl (fun n c => 10 * n + (c.toNat - 0x30)) 0

/-- The text is the number in decimal digits without leading zeros. -/
structure WrittenNumber (t : Text) (n : Nat) : Prop where
  all_digits : t.all CodePoint.isAsciiDigit = true
  ne_nil : t ≠ []
  no_leading_zero : Text.beginsWith (· == '0') t = true → t.length = 1
  decimal_eq : decimal t = n

/-- The text is the key of a member, with white space around it. -/
def WrittenKey (t : Text) (key : String) : Prop :=
  ∃ before quoted after : Text,
    t = before ++ CodePoint.ofChar '"' :: (quoted ++ CodePoint.ofChar '"' :: after) ∧
    before.all isBlank = true ∧ after.all isBlank = true ∧
    WrittenUnits quoted (Text.ofString key).utf16

/-- An item as it is written. -/
structure Item where
  text : Text
  value : Json

/-- A member as it is written. -/
structure Member where
  keyText : Text
  key : String
  text : Text
  value : Json

def Member.whole (m : Member) : Text := m.keyText ++ ":" ++ m.text

/-- The text, which may have white space around it, stands for the value. -/
inductive Written : Text → Json → Prop where
  | null : Written "null" null
  | true_ : Written "true" (bool true)
  | false_ : Written "false" (bool false)
  | number {t : Text} {n : Nat} : WrittenNumber t n → Written t (number n)
  | string {t units : Text} :
    WrittenUnits t units → Written ('"' :: (t ++ "\"")) (string units)
  | noItems {t : Text} : t.all isBlank = true → Written ("[" ++ t ++ "]") (array [])
  | items {items : List Item} :
    items ≠ [] → (∀ item ∈ items, Written item.text item.value) →
    Written ("[" ++ Text.join "," (items.map (·.text)) ++ "]") (array (items.map (·.value)))
  | noMembers {t : Text} : t.all isBlank = true → Written ("\x7b" ++ t ++ "\x7d") (object [])
  | members {members : List Member} :
    members ≠ [] → (∀ m ∈ members, WrittenKey m.keyText m.key) →
    (∀ m ∈ members, Written m.text m.value) →
    Written ("\x7b" ++ Text.join "," (members.map (·.whole)) ++ "\x7d")
      (object (members.map fun m => (m.key, m.value)))
  | before {c : CodePoint} {t : Text} {v : Json} : isBlank c = true → Written t v → Written (c :: t) v
  | after {c : CodePoint} {t : Text} {v : Json} :
    isBlank c = true → Written t v → Written (t ++ [c]) v

mutual

/-- The value with the code units of its strings. -/
def utf16 : Json → Json
  | null => null
  | bool b => bool b
  | number n => number n
  | string t => string t.utf16
  | array items => array (itemsUtf16 items)
  | object members => object (membersUtf16 members)

def itemsUtf16 : List Json → List Json
  | [] => []
  | v :: rest => v.utf16 :: itemsUtf16 rest

def membersUtf16 : List (String × Json) → List (String × Json)
  | [] => []
  | (key, v) :: rest => (key, v.utf16) :: membersUtf16 rest

end

end MemberAccess.Json
