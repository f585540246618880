import MemberAccess.Grammar.Basic

/-!
# Reading lexemes by a grammar

A thread is a choice of alternatives made so far: the symbols that still have to be read and the
function that waits for their values. The reader keeps all threads that agree with the lexemes read,
in the order of alternatives, so the first thread to end is the preferred reading, and a lexeme that
no thread survives is the first that cannot stand where it does.
-/

namespace MemberAccess

variable {T N : Type}

/-- What is left to read for a result, and what makes the result of it. -/
structure Thread (G : Grammar T N) (R : Type) where
  stack : List (Symbol T N)
  build : Builder G.Value stack R

namespace Thread

variable {G : Grammar T N} {R : Type}

/-- Chooses alternatives until each thread begins with a terminal or is at its end. No more than
`depth` choices follow one another. -/
def expand : (depth : Nat) → Thread G R → List (Thread G R)
  | 0, _ => []
  | depth + 1, ⟨.node n :: ss, build⟩ =>
    (G.alternatives n).flatMap fun a =>
      expand depth ⟨a.symbols ++ ss, Builder.compose a.symbols a.build build⟩
  | _ + 1, thread => [thread]

/-- Reads a lexeme where the thread begins with its terminal. -/
def shift [DecidableEq T] (l : Lexeme T) : Thread G R → Option (Thread G R)
  | ⟨.skip t :: ss, build⟩ => if t = l.terminal then some ⟨ss, build⟩ else none
  | ⟨.take t :: ss, build⟩ => if t = l.terminal then some ⟨ss, build l.text⟩ else none
  | _ => none

/-- The result of a thread that has nothing left to read. -/
def result? : Thread G R → Option R
  | ⟨[], r⟩ => some r
  | _ => none

/-- Drops each thread that has the same symbols left as an earlier one: what can follow is the same
for both, and the earlier one is preferred. -/
def dedup [DecidableEq T] [DecidableEq N] : List (Thread G R) → List (Thread G R)
  | [] => []
  | thread :: more => thread :: (dedup more).filter (·.stack ≠ thread.stack)

end Thread

/-- Whether nothing at all can be read as the symbol, if `nullable` tells it of nonterminals. -/
def Symbol.isNullable (nullable : N → Bool) : Symbol T N → Bool
  | .node n => nullable n
  | _ => false

namespace Grammar

/-- The most choices in a row before the symbols come to a terminal, if `weight n` bounds those that
`n` itself needs and `nullable n` holds of each `n` that can be empty. -/
def choices (weight : N → Nat) (nullable : N → Bool) : List (Symbol T N) → Nat
  | .node n :: ss => weight n + if nullable n then choices weight nullable ss else 0
  | _ => 0

/-- A grammar with a bound on the choices in a row, so that no nonterminal begins with itself. The
bound holds for proper nonterminals, which lead to proper ones only. -/
structure Bounded (T N : Type) extends Grammar T N where
  proper : N → Bool
  nullable : N → Bool
  weight : N → Nat
  proper_of_mem : ∀ {n m : N} {a : Alternative T Value n}, proper n → a ∈ alternatives n →
    .node m ∈ a.symbols → proper m
  nullable_of_mem : ∀ {n : N} {a : Alternative T Value n}, proper n → a ∈ alternatives n →
    a.symbols.all (·.isNullable nullable) → nullable n
  choices_lt_weight : ∀ {n : N} {a : Alternative T Value n}, proper n → a ∈ alternatives n →
    choices weight nullable a.symbols < weight n

namespace Bounded

variable (G : Bounded T N) {R : Type}

/-- The threads at terminals and ends that a thread leads to. -/
def frontier (thread : Thread G.toGrammar R) : List (Thread G.toGrammar R) :=
  thread.expand (choices G.weight G.nullable thread.stack + 1)

variable [DecidableEq T] [DecidableEq N]

/-- The threads after one more lexeme. -/
def advance (threads : List (Thread G.toGrammar R)) (l : Lexeme T) :
    List (Thread G.toGrammar R) :=
  Thread.dedup ((threads.flatMap G.frontier).filterMap (Thread.shift l))

/-- The threads that survive all tokens, or the first token that none survives. -/
def survivors (threads : List (Thread G.toGrammar R)) :
    List (Token T) → Except (Token T) (List (Thread G.toGrammar R))
  | [] => .ok threads
  | token :: rest =>
    match G.advance threads token.toLexeme with
    | [] => .error token
    | next => survivors next rest

/-- The result of the first thread that can end here. -/
def complete? (threads : List (Thread G.toGrammar R)) : Option R :=
  (threads.flatMap G.frontier).findSome? Thread.result?

/-- The one thread before the first lexeme of the nonterminal `n`. -/
def start (n : N) : List (Thread G.toGrammar (G.Value n)) := [⟨[.node n], fun v => v⟩]

end Bounded

end Grammar

end MemberAccess
