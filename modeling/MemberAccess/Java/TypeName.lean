import MemberAccess.Java.Terminal
import MemberAccess.Text.Blank

/-!
# Names of types

A type is named in source form, with dots and type arguments, or in the form under which a class is
loaded at run time, where an array has one bracket for each dimension before its element.
-/

namespace MemberAccess.Java

namespace TypeName

/-- Nested classes, which `$` separates in a binary name, are separated by dots in source text. -/
def toSource (binaryName : Text) : Text :=
  binaryName.map fun c : CodePoint => if c = '$' then '.' else c

def isLineFeed (c : CodePoint) : Bool := c == '\n'

def isGreater (c : CodePoint) : Bool := c == '>'

/-- The length of the line's rest up to and with its last `>`, zero if it has none. -/
def throughLastGreater (t : Text) : Nat :=
  ((t.takeWhile (!isLineFeed ·)).reverse.dropWhile (!isGreater ·)).length

/-- Drops what stands from a `<` to the last `>` of its line. The first `inside` characters belong
to a stretch that is being dropped. -/
def dropArguments (inside : Nat) : Text → Text
  | [] => []
  | c :: rest =>
    match inside with
    | n + 1 => dropArguments n rest
    | 0 =>
      if c = '<' && throughLastGreater rest != 0 then
        dropArguments (throughLastGreater rest) rest
      else c :: dropArguments 0 rest

/-- The name without type arguments and without white space at its ends. -/
def erase (name : Text) : Text := Text.trim (dropArguments 0 name)

/-- The one-letter descriptor of a primitive type. -/
def descriptor : Primitive → Text
  | .boolean => "Z"
  | .byte => "B"
  | .char => "C"
  | .short => "S"
  | .int => "I"
  | .long => "J"
  | .float => "F"
  | .double => "D"

/-- The primitive type with that name. -/
def primitive? (name : Text) : Option Primitive := Primitive.all.find? (·.text = name)

/-- Whether the name is that of a primitive type or `void`. -/
def isPrimitive (name : Text) : Bool := (primitive? name).isSome || name = "void"

/-- The name without `ending` and the white space before it, if it ends so. -/
def dropEnding? (ending name : Text) : Option Text :=
  if ending.isSuffixOf name then some (Text.trimEnd (name.take (name.length - ending.length)))
  else none

/-- The name without its pairs of brackets, of which there are at most `limit`, and their number. -/
def dropPairs : (limit : Nat) → Text → Text × Nat
  | 0, name => (name, 0)
  | limit + 1, name =>
    match dropEnding? "[]" name with
    | none => (name, 0)
    | some shorter =>
      let (element, dimensions) := dropPairs limit shorter
      (element, dimensions + 1)

/-- The element of an array type and the number of its dimensions, of which an ellipsis is one. -/
def elementAndDimensions (name : Text) : Text × Nat :=
  match dropEnding? "..." name with
  | none => dropPairs name.length name
  | some shorter =>
    let (element, dimensions) := dropPairs shorter.length shorter
    (element, dimensions + 1)

/-- The descriptor of an element type of an array. -/
def elementDescriptor (element : Text) : Text :=
  match primitive? element with
  | some p => descriptor p
  | none => "L" ++ element ++ ";"

/-- The name under which the class of a type is loaded. -/
def loadable (name : Text) : Text :=
  let (element, dimensions) := elementAndDimensions (erase name)
  if dimensions = 0 then element
  else List.replicate dimensions (CodePoint.ofChar '[') ++ elementDescriptor element

/-- How a character stands in a quoted name. -/
def quotedChar (c : CodePoint) : Text := if c = '\\' || c = '"' then ['\\', c] else [c]

/-- A string literal for a name. -/
def quote (name : Text) : Text := "\"" ++ name.flatMap quotedChar ++ "\""

/-- An expression for the class object of a type. -/
def classExpression (name : Text) : Text :=
  if isPrimitive name then name ++ ".class"
  else "java.lang.Class.forName(" ++ quote (loadable name) ++ ")"

end TypeName

end MemberAccess.Java
