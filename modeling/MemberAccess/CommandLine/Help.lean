import MemberAccess.CommandLine.Arguments

/-!
# Help texts

A help text shows how a command is called and then each operand and option with what it means, in
two columns. Lines are filled with as many words as fit.
-/

namespace MemberAccess.CommandLine

namespace Help

/-- The number of characters on a line. -/
def lineWidth : Nat := 78

/-- The column where explanations begin at the latest. -/
def maxHelpColumn : Nat := 24

/-- Puts words on lines of at most `lineWidth` characters, of which the current line has `used` and
each new one has a margin. A word that is longer has a line of its own. -/
def fillFrom (lineWidth margin used : Nat) (line : List Text) : List Text → List (List Text)
  | [] => if line.isEmpty then [] else [line]
  | word :: words =>
    if used + 1 + word.length > lineWidth && !line.isEmpty then
      line :: fillFrom lineWidth margin (margin + word.length) [word] words
    else fillFrom lineWidth margin (used + 1 + word.length) (line ++ [word]) words

/-- The stretches between spaces, where `current` is the beginning of the first. -/
def stretches (current : Text) : Text → List Text
  | [] => [current]
  | c :: rest => if c = ' ' then current :: stretches [] rest else stretches (current ++ [c]) rest

/-- The words of a text, with spaces between. -/
def words (t : Text) : List Text := (stretches [] t).filter (!·.isEmpty)

/-- The lines of a text of at most `width` characters. -/
def fill (width : Nat) (t : Text) : List Text :=
  match words t with
  | [] => []
  | word :: more => (fillFrom width 0 word.length [word] more).map (Text.join " ")

/-- An operand or option with its explanation. -/
structure Entry where
  indent : Nat
  title : Text
  help : Text

/-- The lines of an entry whose explanation begins at `column`. -/
def Entry.lines (column : Nat) (entry : Entry) : List Text :=
  let header := Text.spaces entry.indent ++ entry.title
  let explanation := (fill (lineWidth - column) entry.help).map (Text.spaces column ++ ·)
  match explanation with
  | first :: more =>
    if header.length + 2 ≤ column then (header ++ first.drop header.length) :: more
    else header :: explanation
  | [] => [header]

/-- The parts of the usage line for an option, between which the line can be broken. -/
def usageOfOption (o : OptionSpec) : List Text :=
  let name := o.names.head?.getD []
  let parts := match o.metavar with
    | some metavar => [name, metavar]
    | none => [name]
  if o.isRequired then parts else ["[" ++ Text.join " " parts ++ "]"]

/-- The choices for an operand. -/
def choicesText (choices : List Text) : Text := "\x7b" ++ Text.join "," choices ++ "\x7d"

def usageOfOperands (choices : List Text) : Operands → List Text
  | .none => []
  | .oneOrMore name _ => [name, "[" ++ name ++ " ...]"]
  | .withRest _ => [choicesText choices, "..."]

/-- How a command is called. -/
def usage (choices : List Text) (command : Command) : List Text :=
  let optionParts := command.options.flatMap usageOfOption
  let operandParts := usageOfOperands choices command.operands
  let opening : Text := "usage: " ++ command.program
  let line := Text.join " " (opening :: optionParts ++ operandParts)
  if line.length ≤ lineWidth then [line]
  else
    let margin := opening.length + 1
    let indented (line : List Text) : Text := Text.spaces margin ++ Text.join " " line
    let operandLines := (fillFrom lineWidth margin (margin - 1) [] operandParts).map indented
    match fillFrom lineWidth margin opening.length [opening] optionParts with
    | [] => operandLines
    | first :: more => Text.join " " first :: more.map indented ++ operandLines

def entryOfOption (o : OptionSpec) : Entry where
  indent := 2
  title := Text.join ", " (o.names.map fun name =>
    match o.metavar with
    | some metavar => name ++ " " ++ metavar
    | none => name)
  help := o.help

/-- A heading with the entries under it. -/
def sectionLines (column : Nat) (heading : Text) (entries : List Entry) : List Text :=
  if entries.isEmpty then []
  else [] :: heading :: entries.flatMap (Entry.lines column)

/-- The entries for the operands; a choice of commands is followed by their entries. -/
def entriesOfOperands (choices : List (Text × Text)) : Operands → List Entry
  | .none => []
  | .oneOrMore name help => [⟨2, name, help⟩]
  | .withRest _ =>
    ⟨2, choicesText (choices.map (·.1)), "Available commands"⟩ ::
      choices.map fun choice => ⟨4, choice.1, choice.2⟩

/-- The help text of a command, with the names and explanations of the commands under it. -/
def text (description : Text) (choices : List (Text × Text)) (command : Command) : Text :=
  let operands := entriesOfOperands choices command.operands
  let options := command.options.map entryOfOption
  let widest := ((operands ++ options).map (·.title.length)).foldl max 0
  let column := min maxHelpColumn (widest + 4)
  let about := if description.isEmpty then [] else [] :: fill lineWidth description
  let lines := usage (choices.map (·.1)) command ++ about ++
    sectionLines column "positional arguments:" operands ++
    sectionLines column "options:" options
  lines.flatMap (· ++ "\n")

end Help

end MemberAccess.CommandLine
