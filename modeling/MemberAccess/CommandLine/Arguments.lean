import MemberAccess.CommandLine.Option

/-!
# The arguments of a command

Arguments are taken from left to right. Options become settings in the order in which they stand,
operands are taken where the command allows them, and the rest is left over.
-/

namespace MemberAccess.CommandLine

/-- The arguments of a command that are no options. -/
inductive Operands where
  | none
  /-- One or more, under a name for messages. -/
  | oneOrMore (name help : Text)
  /-- One, with all arguments after it. -/
  | withRest (name : Text)

/-- A command with its options and operands. -/
structure Command where
  program : Text
  options : List OptionSpec
  operands : Operands

/-- An option as it was given; one without a value has the empty text. -/
structure Setting where
  key : Text
  value : Text
  deriving DecidableEq

/-- Why the arguments are not taken: help is wanted instead, or something is wrong. -/
inductive Refusal where
  | help
  | complaint (message : Text)

/-- What has been taken from the arguments. -/
structure Taken where
  settings : List Setting := []
  operands : Option (List Text) := none
  leftOver : List Text := []

namespace Taken

/-- The last value of an option. -/
def value? (t : Taken) (key : Text) : Option Text :=
  (t.settings.reverse.find? (·.key = key)).map (·.value)

/-- All values of an option in order. -/
def values (t : Taken) (key : Text) : List Text :=
  (t.settings.filter (·.key = key)).map (·.value)

def has (t : Taken) (key : Text) : Bool := t.settings.any (·.key = key)

end Taken

/-- The key of the option that asks for help. -/
def helpKey : Text := "--help"

/-- Adds a setting, if its value is acceptable. -/
def Taken.set (t : Taken) (o : OptionSpec) (value : Text) : Except Refusal Taken :=
  if o.key = helpKey then .error .help
  else
    match o.objection value with
    | some problem => .error (.complaint (o.complaint problem))
    | none => .ok { t with settings := t.settings ++ [⟨o.key, value⟩] }

/-- The options that one argument gives, with their values, what of the argument is left over, and
the arguments that remain. -/
structure Given where
  options : List (OptionSpec × Text)
  leftOver : List Text
  remaining : List Argument

def ignoredAttachment (o : OptionSpec) (t : Text) : Refusal :=
  .complaint (o.complaint ("ignored explicit argument " ++ Text.quoted t))

/-- Reads an option. Letters attached to an option without a value are options too; there are no
more than `limit` of them. -/
def givenBy (options : List OptionSpec) (rest : List Argument) :
    (limit : Nat) → OptionSpec → Text → Option Attached → Except Refusal Given
  | _, o, _, none =>
    if o.takesValue then
      match rest with
      | ⟨value, .plain⟩ :: rest => .ok ⟨[(o, value)], [], rest⟩
      | _ => .error (.complaint (o.complaint "expected one argument"))
    else .ok ⟨[(o, [])], [], rest⟩
  | limit, o, name, some attached =>
    if o.takesValue then .ok ⟨[(o, attached.text)], [], rest⟩
    else
      match limit, attached.text with
      | limit + 1, letter :: more =>
        if isLong name || attached.byEquals || isDash letter then
          .error (ignoredAttachment o attached.text)
        else
          match exactly? options ['-', letter] with
          | none => .ok ⟨[(o, [])], [CodePoint.ofChar '-' :: letter :: more], rest⟩
          | some next => do
            let attachedNext : Option Attached :=
              match more with
              | [] => none
              | c :: value => if isEquals c then some ⟨value, true⟩ else some ⟨more, false⟩
            let given ← givenBy options rest limit next ['-', letter] attachedNext
            return { given with options := (o, []) :: given.options }
      | _, _ => .error (ignoredAttachment o attached.text)

def Argument.isPlain (a : Argument) : Bool := match a.reading with | .plain => true | _ => false

def Argument.isSeparator (a : Argument) : Bool :=
  match a.reading with | .separator => true | _ => false

/-- Whether the argument gives no option. -/
def Argument.isOperand (a : Argument) : Bool := a.isPlain || a.isSeparator

/-- Takes the operands at the beginning of the arguments, if they are there. -/
def takeOperands? (operands : Operands) (arguments : List Argument) :
    Option (List Text × List Argument) :=
  if ((arguments.dropWhile (·.isSeparator)).head?.map (·.isPlain)).getD false then
    match operands with
    | .none => none
    | .oneOrMore .. =>
      some (((arguments.takeWhile (·.isOperand)).map (·.text)).erase "--",
        arguments.dropWhile (·.isOperand))
    | .withRest _ => some (arguments.map (·.text), [])
  else none

/-- Takes arguments in at most `limit` steps. -/
def takeFrom (command : Command) : (limit : Nat) → Taken → List Argument → Except Refusal Taken
  | _, taken, [] => .ok taken
  | 0, taken, rest => .ok { taken with leftOver := taken.leftOver ++ rest.map (·.text) }
  | limit + 1, taken, arg :: rest =>
    match arg.reading with
    | .known o name attached => do
      let given ← givenBy command.options rest arg.text.length o name attached
      let taken ← given.options.foldlM (fun taken given => taken.set given.1 given.2) taken
      takeFrom command limit { taken with leftOver := taken.leftOver ++ given.leftOver }
        given.remaining
    | .unknown =>
      takeFrom command limit { taken with leftOver := taken.leftOver ++ [arg.text] } rest
    | .plain | .separator =>
      match if taken.operands.isSome then none
        else takeOperands? command.operands (arg :: rest) with
      | some (operands, rest) =>
        takeFrom command limit { taken with operands := some operands } rest
      | none =>
        let run := (arg :: rest).takeWhile (·.isOperand)
        takeFrom command limit { taken with leftOver := taken.leftOver ++ run.map (·.text) }
          (rest.dropWhile (·.isOperand))

/-- The names of what a command requires and has not been given. -/
def missing (command : Command) (taken : Taken) : List Text :=
  ((command.options.filter (·.isRequired)).filter (!taken.has ·.key)).map (·.title) ++
  match command.operands with
  | .oneOrMore name _ => if taken.operands.isNone then [name] else []
  | _ => []

/-- Takes the arguments of a command, which have to give all that it requires. -/
def Command.take (command : Command) (arguments : List Text) : Except Refusal Taken := do
  match readings command.options arguments with
  | .error message => throw (.complaint message)
  | .ok readings =>
    let taken ← takeFrom command readings.length {} readings
    match missing command taken with
    | [] => return taken
    | names =>
      throw (.complaint ("the following arguments are required: " ++ Text.join ", " names))

end MemberAccess.CommandLine
