import MemberAccess.Accessor.Target
import MemberAccess.CommandLine.Help

/-!
# The commands

One command parses files, and one for each kind of access generates accessors.
-/

namespace MemberAccess.CommandLine

open Accessor

/-- What the program can be asked to do. -/
inductive Task where
  | parse
  | field
  | setField
  | method
  | constructor
  deriving DecidableEq, Repr

namespace Task

def all : List Task := [parse, field, setField, method, constructor]

def name : Task → Text
  | parse => "parse"
  | field => "field"
  | setField => "set-field"
  | method => "method"
  | constructor => "constructor"

def help : Task → Text
  | parse => "Parse Java method declarations and output AST as JSON"
  | field => "Generate an accessor reading a field"
  | setField => "Generate an accessor writing a field"
  | method => "Generate an accessor invoking a method"
  | constructor => "Generate an accessor invoking a constructor"

def ofName? (name : Text) : Option Task := all.find? (·.name = name)

end Task

/-- What stands before the last colon, and what after it. -/
def splitAtLastColon (t : Text) : Option (Text × Text) :=
  let isColon (c : CodePoint) : Bool := c == ':'
  match t.reverse.dropWhile (!isColon ·) with
  | [] => none
  | _ :: before => some (before.reverse, (t.reverse.takeWhile (!isColon ·)).reverse)

/-- A parameter given as its type and its name with a colon between. -/
def parameter? (t : Text) : Option (Text × Text) :=
  (splitAtLastColon t).filter fun p => !p.1.isEmpty && !p.2.isEmpty

def objectionToParameter (t : Text) : Option Text :=
  if (parameter? t).isSome then none else some ("expected TYPE:NAME, got " ++ Text.quoted t)

def helpOption : OptionSpec where
  names := ["-h", helpKey]
  help := "show this help message and exit"

def verboseOption : OptionSpec where
  names := ["-v", "--verbose"]
  help := "Enable debug logging"

def ownerOption : OptionSpec where
  names := ["--owner"]
  metavar := some "OWNER"
  isRequired := true
  help := "Binary name of the class declaring the member (e.g. com.example.Outer$Inner)"

def memberOption : OptionSpec where
  names := ["--member"]
  metavar := some "MEMBER"
  isRequired := true
  help := "Name of the field or method to access"

def nameOption : OptionSpec where
  names := ["--name"]
  metavar := some "NAME"
  isRequired := true
  help := "Name of the generated method"

def returnTypeOption : OptionSpec where
  names := ["--return-type"]
  metavar := some "RETURN_TYPE"
  help := "Return type of the generated method (default: void)"

def staticOption : OptionSpec where
  names := ["--static"]
  help := "Generate a static method"

def parameterOption : OptionSpec where
  names := ["-p", "--param"]
  metavar := some "TYPE:NAME"
  help := "Parameter of the generated method, in order (repeatable)"
  objection := objectionToParameter

def contextOption : OptionSpec where
  names := ["--context"]
  metavar := some "CONTEXT"
  help := "Class the generated method will be inserted into"

def astOption : OptionSpec where
  names := ["--ast"]
  help := "Print the parsed method as JSON instead of the source text"

def programName : Text := "jreflect"

/-- The program as a whole, before a command is chosen. -/
def mainCommand : Command where
  program := programName
  options := [helpOption, verboseOption]
  operands := .withRest "command"

def Task.options : Task → List OptionSpec
  | parse => [helpOption]
  | constructor =>
    [helpOption, ownerOption, nameOption, returnTypeOption, staticOption, parameterOption,
     contextOption, astOption]
  | field | setField | method =>
    [helpOption, ownerOption, memberOption, nameOption, returnTypeOption, staticOption,
     parameterOption, contextOption, astOption]

def Task.operands : Task → Operands
  | parse => .oneOrMore "files" "Files each holding one Java method declaration"
  | _ => .none

def Task.command (task : Task) : Command where
  program := programName ++ " " ++ task.name
  options := task.options
  operands := task.operands

def mainHelp : Text :=
  Help.text "Generate Java methods that access inaccessible members through reflection"
    (Task.all.map fun task => (task.name, task.help)) mainCommand

def Task.helpText (task : Task) : Text := Help.text [] [] task.command

/-- The member that a command accesses. -/
def Task.target? (owner member : Text) : Task → Option Target
  | parse => none
  | field => some (.field .get owner member)
  | setField => some (.field .set owner member)
  | method => some (.method owner member)
  | constructor => some (.constructor owner)

end MemberAccess.CommandLine
