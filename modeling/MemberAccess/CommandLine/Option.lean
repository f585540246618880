import MemberAccess.Text.Blank
import MemberAccess.Text.Quoted

/-!
# Options on a command line

An option has a name of one dash and one letter, a name of two dashes and a word, or both. A word
can be cut short as long as one option alone begins so. A value follows as an argument of its own,
after an equals sign, or right after the letter.
-/

namespace MemberAccess.CommandLine

/-- An option that a command understands. -/
structure OptionSpec where
  /-- The names with their dashes, the one for the settings last. -/
  names : List Text
  /-- What stands for the value in help texts, if the option takes one. -/
  metavar : Option Text := none
  isRequired : Bool := false
  help : Text
  /-- What is wrong with a value, if anything is. -/
  objection : Text → Option Text := fun _ => none

namespace OptionSpec

/-- The name of the option in settings. -/
def key (o : OptionSpec) : Text := o.names.getLast?.getD []

/-- How messages call the option. -/
def title (o : OptionSpec) : Text := Text.join "/" o.names

def takesValue (o : OptionSpec) : Bool := o.metavar.isSome

/-- A message about the option. -/
def complaint (o : OptionSpec) (problem : Text) : Text :=
  "argument " ++ o.title ++ ": " ++ problem

end OptionSpec

/-- A text written together with the name of an option, after an equals sign or right after it. -/
structure Attached where
  text : Text
  byEquals : Bool

/-- What an argument is, as seen by a command with certain options. -/
inductive Reading where
  | plain
  /-- Two dashes: the arguments after them are plain. -/
  | separator
  | known (spec : OptionSpec) (name : Text) (attached : Option Attached)
  | unknown

/-- An argument with its reading. -/
structure Argument where
  text : Text
  reading : Reading

def isEquals (c : CodePoint) : Bool := c == '='

def isDash (c : CodePoint) : Bool := c == '-'

/-- What stands before the first equals sign, and what after it, if there is one. -/
def splitAtEquals (t : Text) : Text × Option Text :=
  (t.takeWhile (!isEquals ·), (t.dropWhile (!isEquals ·)).tail?)

/-- The options with each of their names. -/
def namedOptions (options : List OptionSpec) : List (Text × OptionSpec) :=
  options.flatMap fun o => o.names.map fun name => (name, o)

/-- The option with exactly that name. -/
def exactly? (options : List OptionSpec) (name : Text) : Option OptionSpec :=
  ((namedOptions options).find? (·.1 = name)).map (·.2)

/-- The names that an argument of two dashes can be short for. -/
def completions (options : List OptionSpec) (beginning : Text) : List (Text × OptionSpec) :=
  (namedOptions options).filter fun o => beginning.isPrefixOf o.1

/-- Whether an argument is a negative number and no option; one line feed at its end is ignored. -/
def isNegativeNumber (arg : Text) : Bool :=
  let body := arg.drop 1
  let digits := if body.getLast? = some (CodePoint.ofChar '\n') then body.dropLast else body
  let fraction := digits.dropWhile CodePoint.isDecimal
  if fraction.isEmpty then !digits.isEmpty
  else
    Text.beginsWith (· == '.') fraction && !(fraction.drop 1).isEmpty &&
    (fraction.drop 1).all CodePoint.isDecimal

/-- Whether an argument begins with two dashes. -/
def isLong (arg : Text) : Bool :=
  Text.beginsWith isDash arg && Text.beginsWith isDash (arg.drop 1)

/-- What an argument is that begins with a dash but is no option of the command. -/
def readingOfOther (arg : Text) : Reading :=
  if isNegativeNumber arg || arg.any (· == ' ') then .plain else .unknown

/-- The reading of an argument of two dashes, by which it is short for at most one option. -/
def readingOfLong (options : List OptionSpec) (arg : Text) : Except Text Reading :=
  let (beginning, value) := splitAtEquals arg
  match completions options beginning with
  | [] => .ok (readingOfOther arg)
  | [(name, o)] => .ok (.known o name (value.map fun t => ⟨t, true⟩))
  | several =>
    .error ("ambiguous option: " ++ arg ++ " could match " ++ Text.join ", " (several.map (·.1)))

/-- The reading of an argument of one dash: a letter with more after it. -/
def readingOfShort (options : List OptionSpec) (arg : Text) : Reading :=
  match exactly? options (arg.take 2) with
  | some o => .known o (arg.take 2) (some ⟨arg.drop 2, false⟩)
  | none => readingOfOther arg

/-- The reading of an argument that begins with a dash and more. -/
def readingOfDashed (options : List OptionSpec) (arg : Text) : Except Text Reading :=
  match exactly? options arg with
  | some o => .ok (.known o arg none)
  | none =>
    match splitAtEquals arg with
    | (name, some value) =>
      match exactly? options name with
      | some o => .ok (.known o name (some ⟨value, true⟩))
      | none => if isLong arg then readingOfLong options arg else .ok (readingOfShort options arg)
    | (_, none) =>
      if isLong arg then readingOfLong options arg else .ok (readingOfShort options arg)

/-- The reading of an argument before any separator, or a complaint if it is ambiguous. -/
def readingOf (options : List OptionSpec) (arg : Text) : Except Text Reading :=
  if Text.beginsWith isDash arg && arg.length > 1 then readingOfDashed options arg else .ok .plain

/-- The readings of all arguments. -/
def readings (options : List OptionSpec) : List Text → Except Text (List Argument)
  | [] => .ok []
  | arg :: rest =>
    if arg = "--" then .ok (⟨arg, .separator⟩ :: rest.map fun t => ⟨t, .plain⟩)
    else do
      let reading ← readingOf options arg
      let others ← readings options rest
      return ⟨arg, reading⟩ :: others

end MemberAccess.CommandLine
