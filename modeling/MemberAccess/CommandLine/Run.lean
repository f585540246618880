import MemberAccess.Accessor.Draft
import MemberAccess.CommandLine.Commands
import MemberAccess.Java.Ast.Object
import MemberAccess.Text.Utf8

/-!
# Running the program

A run is a function of the arguments and the files: what is written to the two output channels, and
the exit status.
-/

namespace MemberAccess.CommandLine

open Accessor Java

/-- What a run shows. -/
structure Outcome where
  status : Nat
  output : Text
  errors : Text
  deriving DecidableEq

/-- The contents of files by their names; there is nothing under other names. -/
abbrev Files := Text → Option (List UInt8)

namespace Outcome

def done (output : Text) : Outcome := ⟨0, output, []⟩

/-- A complaint about the arguments of a command. -/
def misuse (program message : Text) : Outcome :=
  ⟨2, [], program ++ ": error: " ++ message ++ "\n"⟩

def failure (output message : Text) : Outcome := ⟨1, output, message ++ "\n"⟩

end Outcome

/-- The spaces for each level of JSON that is printed. -/
def jsonIndent : Nat := 2

def astText (m : MethodDeclaration) : Text := m.toJson.render jsonIndent ++ "\n"

/-- Prints the trees of the files up to the first that is missing or no method. -/
def parseFiles (files : Files) (output : Text) : List Text → Outcome
  | [] => .done output
  | name :: rest =>
    match files name with
    | none => .failure output ("Error: File not found: " ++ name)
    | some bytes =>
      match parse (Text.ofFile bytes) with
      | .error e => .failure output ("Error parsing " ++ name ++ ": " ++ e.fault.message)
      | .ok m => parseFiles files (output ++ astText m) rest

/-- The changes that settings make to a draft. -/
def changesOf (taken : Taken) (target : Option Target) : List Draft.Change :=
  [.setStatic (taken.has "--static"),
   .setReturnType ((taken.value? "--return-type").getD "void")] ++
  ((taken.values "--param").filterMap parameter?).map (fun p => .addParameter p.1 p.2) ++
  target.toList.map .setTarget

/-- The draft that settings describe. -/
def draftOf (taken : Taken) (target : Option Target) : Draft :=
  (changesOf taken target).foldl Draft.change (.new ((taken.value? "--name").getD []))

/-- The class for which the method is made; an empty name is none. -/
def contextOf (taken : Taken) : Option Text := Parameter.known? (taken.value? "--context")

def targetKind : Target → Text
  | .field .. => "FieldAccessor"
  | .method .. => "MethodAccessor"
  | .constructor _ => "ConstructorAccessor"

/-- What is reported of the making of an accessor if reports are wanted. -/
def report (spec : Spec) : Text :=
  "DEBUG jreflect.builder: Generating " ++ targetKind spec.target ++ " accessor " ++ spec.name ++
  " (" ++ Text.ofNat spec.parameters.length ++ " parameters)\n"

/-- Makes and prints an accessor. -/
def generate (isVerbose : Bool) (taken : Taken) (draft : Draft) : Outcome :=
  let reports := match draft.spec with
    | .ok spec => if isVerbose then report spec else []
    | .error _ => []
  let outcome := match (draft.build {} (contextOf taken)).2 with
    | .error e => Outcome.failure [] ("Error: " ++ e.message)
    | .ok m => .done (if taken.has "--ast" then astText m.method else m.text)
  { outcome with errors := reports ++ outcome.errors }

/-- Does what a command was asked to do. -/
def Task.run (files : Files) (isVerbose : Bool) (taken : Taken) (task : Task) : Outcome :=
  match task with
  | parse => parseFiles files [] (taken.operands.getD [])
  | task =>
    let owner := (taken.value? "--owner").getD []
    let member := (taken.value? "--member").getD []
    generate isVerbose taken (draftOf taken (task.target? owner member))

def unrecognized (leftOver : List Text) : Outcome :=
  .misuse programName ("unrecognized arguments: " ++ Text.join " " leftOver)

/-- A complaint about a word that is no command. -/
def unknownCommand (name : Text) : Outcome :=
  .misuse programName ("argument command: invalid choice: " ++ Text.quoted name ++
    " (choose from " ++ Text.join ", " (Task.all.map fun task => Text.quoted task.name) ++ ")")

/-- Runs a command with its arguments, after `leftOver` arguments that are none of the program's. -/
def runTask (files : Files) (isVerbose : Bool) (leftOver : List Text) (task : Task)
    (arguments : List Text) : Outcome :=
  match task.command.take arguments with
  | .error .help => .done task.helpText
  | .error (.complaint message) => .misuse task.command.program message
  | .ok taken =>
    match leftOver ++ taken.leftOver with
    | [] => task.run files isVerbose taken
    | several => unrecognized several

/-- Runs the program. -/
def run (files : Files) (arguments : List Text) : Outcome :=
  match mainCommand.take arguments with
  | .error .help => .done mainHelp
  | .error (.complaint message) => .misuse programName message
  | .ok taken =>
    match taken.operands with
    | some (name :: rest) =>
      match Task.ofName? name with
      | some task => runTask files (taken.has "--verbose") taken.leftOver task rest
      | none => unknownCommand name
    | _ =>
      match taken.leftOver with
      | [] => ⟨1, mainHelp, []⟩
      | several => unrecognized several

end MemberAccess.CommandLine
