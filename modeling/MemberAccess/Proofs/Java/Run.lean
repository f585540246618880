import Mathlib.Logic.Function.Basic
import MemberAccess.Java.Ast.Basic

/-!
# What statements do

The usual meaning of the statements that search classes for a member: loops, attempts that catch
exceptions, assignments, conditions and throws. What classes are above a class and what a look-up in
a class yields is left to a world. Nothing is said of other statements and expressions: they have no
run. A run is given a number of rounds that no loop of it may reach.
-/

namespace MemberAccess.Java

/-- Classes, and what can be found in them. -/
structure World (Class Member Error : Type) where
  superclass : Class → Option Class
  /-- What the call of a method with arguments yields on a class, or the exception that it throws. -/
  lookUp : Class → (method : Text) → (arguments : List Expr) → Except Error Member
  /-- Whether the exception is of the type with that name. -/
  isInstance : Error → (typeName : Text) → Bool

namespace Run

/-- What an expression can come to. -/
inductive Value (Class Member Error : Type) where
  | null
  | bool (b : Bool)
  | class_ (c : Class)
  | member (m : Member)
  | error (e : Error)

/-- The values of variables, with the names that have been assigned to and the classes in which
something has been looked up, the last ones at the end. -/
structure State (Class Member Error : Type) where
  values : Text → Value Class Member Error
  assigned : List Text
  visited : List Class

inductive Completion (Error : Type) where
  | normal
  | thrown (e : Error)
  deriving DecidableEq

variable {Class Member Error : Type}

namespace State

/-- A variable is given a value without an assignment. -/
def bind (s : State Class Member Error) (x : Text) (v : Value Class Member Error) :
    State Class Member Error :=
  { s with values := Function.update s.values x v }

def assign (s : State Class Member Error) (x : Text) (v : Value Class Member Error) :
    State Class Member Error :=
  { s.bind x v with assigned := s.assigned ++ [x] }

def visit (s : State Class Member Error) (c : Class) : State Class Member Error :=
  { s with visited := s.visited ++ [c] }

end State

/-- What an expression comes to in a state: a value or an exception, and the state after it. -/
abbrev Answer (Class Member Error : Type) : Type :=
  Option (Except Error (Value Class Member Error) × State Class Member Error)

/-- What a statement comes to in a state. -/
abbrev Result (Class Member Error : Type) : Type :=
  Option (Completion Error × State Class Member Error)

def Value.ofClass? : Option Class → Value Class Member Error
  | none => .null
  | some c => .class_ c

/-- Whether a comparison holds of which a side is `null`. -/
def Value.equals? : Value Class Member Error → Value Class Member Error → Option Bool
  | .null, .null => some true
  | .null, _ | _, .null => some false
  | _, _ => none

/-- The methods of a class object with which members are looked up. -/
def lookups : List Text := ["getDeclaredField", "getDeclaredMethod", "getDeclaredConstructor"]

/-- What a call on a class comes to. -/
def callOn (W : World Class Member Error) (c : Class) (method : Text) (arguments : List Expr)
    (s : State Class Member Error) : Answer Class Member Error :=
  if method = "getSuperclass" ∧ arguments.isEmpty then some (.ok (.ofClass? (W.superclass c)), s)
  else if method ∈ lookups then some ((W.lookUp c method arguments).map .member, s.visit c)
  else none

def eval (W : World Class Member Error) (e : Expr) (s : State Class Member Error) :
    Answer Class Member Error :=
  match e with
  | .literal l => if l.kind = .null then some (.ok .null, s) else none
  | .place (.named x) => some (.ok (s.values x), s)
  | .invoke target method arguments =>
    match eval W target s with
    | some (.ok (.class_ c), s) => callOn W c method arguments s
    | some (.ok _, _) => none
    | other => other
  | .assign (.named x) value =>
    match eval W value s with
    | some (.ok v, s) => some (.ok v, s.assign x v)
    | other => other
  | .binary .equal left right =>
    match eval W left s with
    | some (.ok v, s) =>
      match eval W right s with
      | some (.ok w, s) => (v.equals? w).map fun b => (.ok (.bool b), s)
      | other => other
    | other => other
  | _ => none

/-- Goes on with the value of a condition. -/
def branch (answer : Answer Class Member Error)
    (go : Bool → State Class Member Error → Result Class Member Error) :
    Result Class Member Error :=
  match answer with
  | some (.ok (.bool b), s) => go b s
  | some (.error x, s) => some (.thrown x, s)
  | _ => none

/-- Runs `body` as long as `condition` holds, for fewer than `rounds` rounds. -/
def iterate (condition : State Class Member Error → Answer Class Member Error)
    (body : State Class Member Error → Result Class Member Error) :
    (rounds : Nat) → State Class Member Error → Result Class Member Error
  | 0, _ => none
  | rounds + 1, s =>
    branch (condition s) fun b s =>
      if b then
        match body s with
        | some (.normal, s) => iterate condition body rounds s
        | other => other
      else some (.normal, s)

mutual

def exec (W : World Class Member Error) (rounds : Nat) :
    Statement → State Class Member Error → Result Class Member Error
  | .block b, s => execBlock W rounds b s
  | .expression e, s =>
    match eval W e s with
    | some (.ok _, s) => some (.normal, s)
    | some (.error x, s) => some (.thrown x, s)
    | none => none
  | .ifThen condition thenBranch, s =>
    branch (eval W condition s) fun b s =>
      if b then exec W rounds thenBranch s else some (.normal, s)
  | .while_ condition body, s => iterate (eval W condition) (exec W rounds body) rounds s
  | .throw_ e, s =>
    match eval W e s with
    | some (.ok (.error x), s) => some (.thrown x, s)
    | some (.error x, s) => some (.thrown x, s)
    | _ => none
  | .try_ body catches none, s =>
    match execBlock W rounds body s with
    | some (.thrown x, s) => handle W rounds x catches s
    | other => other
  | _, _ => none

def execBlock (W : World Class Member Error) (rounds : Nat) :
    Block → State Class Member Error → Result Class Member Error
  | .mk statements, s => execAll W rounds statements s

def execAll (W : World Class Member Error) (rounds : Nat) :
    List BlockStatement → State Class Member Error → Result Class Member Error
  | [], s => some (.normal, s)
  | .statement first :: rest, s =>
    match exec W rounds first s with
    | some (.normal, s) => execAll W rounds rest s
    | other => other
  | .declaration .. :: _, _ => none

/-- An exception goes to the first clause with a type that it has. The variable of the clause is
visible in its body only. -/
def handle (W : World Class Member Error) (rounds : Nat) (x : Error) :
    List CatchClause → State Class Member Error → Result Class Member Error
  | [], s => some (.thrown x, s)
  | .mk _ types name body :: rest, s =>
    if types.any fun type => W.isInstance x type.name then
      (execBlock W rounds body (s.bind name (.error x))).map fun (completion, after) =>
        (completion, after.bind name (s.values name))
    else handle W rounds x rest s

end

variable {W : World Class Member Error} {rounds : Nat} {s : State Class Member Error}

theorem exec_try (body : Block) (catches : List CatchClause) :
    exec W rounds (.try_ body catches none) s =
      match execBlock W rounds body s with
      | some (.thrown x, s) => handle W rounds x catches s
      | other => other := rfl

theorem exec_ifThen (condition : Expr) (thenBranch : Statement) :
    exec W rounds (.ifThen condition thenBranch) s =
      branch (eval W condition s) fun b s =>
        if b then exec W rounds thenBranch s else some (.normal, s) := rfl

theorem exec_throw (x : Text) {e : Error} (h : s.values x = .error e) :
    exec W rounds (.throw_ (.place (.named x))) s = some (.thrown e, s) := by
  rw [exec, eval, h]

theorem execAll_statement (first : Statement) (rest : List BlockStatement) :
    execAll W rounds (.statement first :: rest) s =
      match exec W rounds first s with
      | some (.normal, s) => execAll W rounds rest s
      | other => other := rfl

theorem exec_block_singleton (body : Statement) :
    exec W rounds (.block (.mk [.statement body])) s = exec W rounds body s := by
  rw [exec, execBlock, execAll_statement]
  rcases exec W rounds body s with _ | ⟨_ | _, _⟩ <;> rfl

theorem exec_assign (x : Text) (value : Expr) :
    exec W rounds (.expression (.assign (.named x) value)) s =
      match eval W value s with
      | some (.ok v, s) => some (.normal, s.assign x v)
      | some (.error e, s) => some (.thrown e, s)
      | none => none := by
  rw [exec, eval]
  rcases eval W value s with _ | ⟨_ | _, _⟩ <;> rfl

/-- What a variable held is put back, where only another one was assigned. -/
theorem State.bind_assign_bind {x y : Text} (h : y ≠ x) (v w : Value Class Member Error) :
    ((s.bind x v).assign y w).bind x (s.values x) = s.assign y w := by
  simp [State.bind, State.assign, Function.update_comm h]

end Run

end MemberAccess.Java
