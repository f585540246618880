import MemberAccess.Java.Escape
import MemberAccess.Java.Grammar
import MemberAccess.Java.Lexer
import MemberAccess.Text.Quoted

/-!
# Methods from text

A text is a method if its tokens, after the escapes are replaced, derive from the grammar. Otherwise
the fault is reported where it first shows: a token that no method can have at its place, a
character where no token can be read, or the end of the text.
-/

namespace MemberAccess.Java

/-- Why a text is no method. -/
inductive Fault where
  /-- No method can go on with this token. -/
  | unexpectedToken (token : Token)
  /-- No token begins where `after` begins; `last` is the token before. -/
  | unexpectedCharacter (before after : Text) (last : Option Token)
  /-- The text ends before the method does. -/
  | unexpectedEnd

/-- A fault in a text that was to be a method. -/
structure MethodError where
  fault : Fault
  /-- The text as given, with its escapes. -/
  text : Text

/-- The method that the tokens of a scan derive, or the first fault. -/
def methodOfScan (t : Text) (s : Scan) : Except Fault MethodDeclaration :=
  match grammar.survivors (grammar.start .method) s.tokens with
  | .error token => .error (.unexpectedToken token)
  | .ok threads =>
    match s.unread with
    | [] =>
      match grammar.complete? threads with
      | some m => .ok m
      | none => .error .unexpectedEnd
    | _ :: _ =>
      .error (.unexpectedCharacter (t.take (t.length - s.unread.length)) s.unread
        s.tokens.getLast?)

/-- The method that a text declares. -/
def parse (source : Text) : Except MethodError MethodDeclaration :=
  let t := unescape source
  match methodOfScan t (scan t) with
  | .ok m => .ok m
  | .error fault => .error ⟨fault, source⟩

/-- The method that a text declares, made for a class. -/
def parseFor (context : Option Text) (source : Text) : Except MethodError MethodDeclaration :=
  (parse source).map fun m => { m with context := context }

namespace Fault

/-- Where a fault is, unless it is the end of the text. -/
def position? : Fault → Option Position
  | unexpectedToken token => some token.position
  | unexpectedCharacter before _ _ => some (Position.start.advance before)
  | unexpectedEnd => none

/-- The characters of a line of text that messages show on either side of a fault. -/
def contextWidth : Nat := 40

def isLineFeed (c : CodePoint) : Bool := c == '\n'

/-- What messages show before a fault: the end of the line up to it. -/
def contextBefore (before : Text) : Text :=
  ((before.reverse.take contextWidth).takeWhile (!isLineFeed ·)).reverse

/-- What messages show from a fault on: the beginning of the rest of the line. -/
def contextAfter (after : Text) : Text := (after.take contextWidth).takeWhile (!isLineFeed ·)

/-- A token as messages show it. -/
def tokenText (token : Token) : Text :=
  "Token('" ++ token.terminal.name ++ "', " ++ Text.quoted token.text ++ ")"

/-- The message for a fault. -/
def message : Fault → Text
  | unexpectedToken token =>
    "Invalid method text: Unexpected token " ++ tokenText token ++
    " at line " ++ Text.ofNat token.position.line ++
    ", column " ++ Text.ofNat token.position.column ++ ".\n"
  | unexpectedCharacter before after last =>
    let position := Position.start.advance before
    "Invalid method text: No terminal matches '" ++ after.take 1 ++
    "' in the current parser context, at line " ++ Text.ofNat position.line ++
    " col " ++ Text.ofNat position.column ++ "\n\n" ++
    contextBefore before ++ contextAfter after ++ "\n" ++
    Text.spaces (Text.width (contextBefore before)) ++ "^\n" ++
    match last with
    | some token => "\nPrevious tokens: " ++ tokenText token ++ "\n"
    | none => []
  | unexpectedEnd => "Invalid method text: Unexpected end-of-input. "

end Fault

end MemberAccess.Java
