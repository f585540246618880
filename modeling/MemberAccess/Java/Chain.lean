import MemberAccess.Java.Ast.Basic

/-!
# Which `if` an `else` belongs to

A statement is read as a chain of links: heads of `if` and `while`, statements without a head, and
the word `else`. A chain is a statement exactly if every `else` has an open `if` before it, but in
general it can be taken apart in several ways. The first `if` of a chain has an `else` if it can
have one at all, and then the last one for which what stands between, and what follows, are
statements; the same holds within the two.
-/

namespace MemberAccess.Java

/-- A piece of a statement. -/
inductive Link where
  | ifHead (condition : Expr)
  | whileHead (condition : Expr)
  | simple (s : Statement)
  | elseWord

abbrev Chain := List Link

namespace Chain

/-- Whether the links are a statement inside `openIfs` heads of `if` that have no `else` yet, some
of which the links may give one. -/
def closes (openIfs : Nat) : Chain → Bool
  | .ifHead _ :: rest => closes (openIfs + 1) rest
  | .whileHead _ :: rest => closes openIfs rest
  | [.simple _] => true
  | .simple _ :: .elseWord :: rest =>
    match openIfs with
    | 0 => false
    | n + 1 => closes n rest
  | _ => false

/-- Whether the links are a statement. -/
def isStatement (links : Chain) : Bool := closes 0 links

/-- The links before and after each `else`. -/
def splits : Chain → List (Chain × Chain)
  | [] => []
  | .elseWord :: rest =>
    ([], rest) :: (splits rest).map fun s => (.elseWord :: s.1, s.2)
  | link :: rest => (splits rest).map fun s => (link :: s.1, s.2)

/-- The links around the last `else` that has a statement on either side. -/
def lastSplit? (links : Chain) : Option (Chain × Chain) :=
  (splits links).reverse.find? fun s => s.1.isStatement && s.2.isStatement

/-- The statement of at most `size` links. -/
def statementOfSize : (size : Nat) → Chain → Statement
  | n + 1, .ifHead condition :: rest =>
    match lastSplit? rest with
    | some (thenLinks, elseLinks) =>
      .ifThenElse condition (statementOfSize n thenLinks) (statementOfSize n elseLinks)
    | none => .ifThen condition (statementOfSize n rest)
  | n + 1, .whileHead condition :: rest => .while_ condition (statementOfSize n rest)
  | _, .simple s :: _ => s
  | _, _ => .empty

/-- The statement that the links are. -/
def statement (links : Chain) : Statement := statementOfSize links.length links

end Chain

end MemberAccess.Java
