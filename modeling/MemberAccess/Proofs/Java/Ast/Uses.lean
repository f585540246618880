import MemberAccess.Proofs.Java.Ast.Blank

/-!
# Uses of names and calls of methods

The expressions that a method declaration is made of, with the places where they stand. Among them
are the uses of names and the calls of methods. Which they are does not depend on what string literals
say.
-/

namespace MemberAccess.Java

/-- Where an expression stands. -/
inductive Site where
  /-- By itself, in a statement or a declaration. -/
  | whole
  | operand
  | assigned
  /-- Before a dot, with the names that are selected from it one after the other. -/
  | selected (path : List Text)
  | receiver (method : Text)
  | argument (method : Text) (index : Nat)
  /-- An argument with which an object is made. -/
  | created (index : Nat)
  deriving DecidableEq

/-- What is selected from an expression at the place. -/
def Site.path : Site → List Text
  | .selected path => path
  | _ => []

mutual

/-- The expression and those that it is made of. -/
@[simp] def Expr.within (site : Site) : Expr → List (Site × Expr)
  | .literal l => [(site, .literal l)]
  | .place p => (site, .place p) :: p.within site.path
  | .this => [(site, .this)]
  | .classLiteral t => [(site, .classLiteral t)]
  | .call method arguments =>
    (site, .call method arguments) :: withinAll (.argument method) 0 arguments
  | .invoke target method arguments =>
    (site, .invoke target method arguments) ::
      (target.within (.receiver method) ++ withinAll (.argument method) 0 arguments)
  | .new type arguments => (site, .new type arguments) :: withinAll .created 0 arguments
  | .assign target value =>
    (site, .assign target value) :: (.assigned, .place target) ::
      (target.within [] ++ value.within .operand)
  | .binary op left right =>
    (site, .binary op left right) :: (left.within .operand ++ right.within .operand)
  | .unary op operand => (site, .unary op operand) :: operand.within .operand
  | .cast type operand => (site, .cast type operand) :: operand.within .operand
  | .instanceOf operand type => (site, .instanceOf operand type) :: operand.within .operand
  | .conditional condition thenExpr elseExpr =>
    (site, .conditional condition thenExpr elseExpr) ::
      (condition.within .operand ++ (thenExpr.within .operand ++ elseExpr.within .operand))

/-- The expressions that a place is made of from which `path` is selected. -/
@[simp] def Place.within (path : List Text) : Place → List (Site × Expr)
  | .named _ => []
  | .field target name => target.within (.selected (name :: path))
  | .element array index => array.within .operand ++ index.within .operand

@[simp] def withinAll (site : Nat → Site) (index : Nat) : List Expr → List (Site × Expr)
  | [] => []
  | e :: rest => e.within (site index) ++ withinAll site (index + 1) rest

end

def withinOption : Option Expr → List (Site × Expr)
  | none => []
  | some e => e.within .whole

mutual

@[simp] def Statement.within : Statement → List (Site × Expr)
  | .block b => b.within
  | .expression e => e.within .whole
  | .ifThen condition thenBranch => condition.within .whole ++ thenBranch.within
  | .ifThenElse condition thenBranch elseBranch =>
    condition.within .whole ++ (thenBranch.within ++ elseBranch.within)
  | .while_ condition body => condition.within .whole ++ body.within
  | .return_ e => withinOption e
  | .throw_ e => e.within .whole
  | .try_ body catches none => body.within ++ withinCatches catches
  | .try_ body catches (some final) => body.within ++ (withinCatches catches ++ final.within)
  | .empty => []

@[simp] def Block.within : Block → List (Site × Expr)
  | .mk statements => withinStatements statements

@[simp] def BlockStatement.within : BlockStatement → List (Site × Expr)
  | .declaration _ _ declarators => declarators.flatMap fun d => withinOption d.initializer
  | .statement s => s.within

@[simp] def CatchClause.within : CatchClause → List (Site × Expr)
  | .mk _ _ _ body => body.within

@[simp] def withinStatements : List BlockStatement → List (Site × Expr)
  | [] => []
  | s :: rest => s.within ++ withinStatements rest

@[simp] def withinCatches : List CatchClause → List (Site × Expr)
  | [] => []
  | c :: rest => c.within ++ withinCatches rest

end

theorem withinAll_map {A : Type} (sites : Nat → Site) (f : A → Expr) (index : Nat) (as : List A) :
    withinAll sites index (as.map f) =
      (as.zipIdx index).flatMap fun a => (f a.1).within (sites a.2) := by
  induction as generalizing index with
  | nil => rfl
  | cons a as ih => rw [List.map_cons, withinAll, ih, List.zipIdx_cons, List.flatMap_cons]

theorem withinCatches_eq_flatMap (cs : List CatchClause) :
    withinCatches cs = cs.flatMap CatchClause.within := by
  induction cs with
  | nil => rfl
  | cons c cs ih => rw [withinCatches, ih, List.flatMap_cons]

theorem withinStatements_append (ss ss' : List BlockStatement) :
    withinStatements (ss ++ ss') = withinStatements ss ++ withinStatements ss' := by
  induction ss with
  | nil => rfl
  | cons s ss ih => rw [List.cons_append, withinStatements, ih, withinStatements, List.append_assoc]

namespace MethodDeclaration

def expressions (m : MethodDeclaration) : List (Site × Expr) := (m.body.map Block.within).getD []

end MethodDeclaration

/-- The name that is used, and where. -/
def use? : Site × Expr → Option (Text × Site)
  | (site, .place (.named x)) => some (x, site)
  | _ => none

/-- The arguments of a call of the method on an object. -/
def call? (method : Text) : Site × Expr → Option (List Expr)
  | (_, .invoke _ name arguments) => if name = method then some arguments else none
  | _ => none

namespace MethodDeclaration

def uses (m : MethodDeclaration) : List (Text × Site) := m.expressions.filterMap use?

def calls (method : Text) (m : MethodDeclaration) : List (List Expr) :=
  m.expressions.filterMap (call? method)

end MethodDeclaration

def blankAt (node : Site × Expr) : Site × Expr := (node.1, node.2.blank)

mutual

theorem Expr.within_blank (site : Site) (e : Expr) :
    e.blank.within site = (e.within site).map blankAt := by
  cases e with
  | literal | this | classLiteral => rfl
  | place p => simp [blankAt, Place.within_blank _ p]
  | call method arguments => simp [blankAt, within_blankExprs _ _ arguments]
  | invoke target method arguments =>
    simp [blankAt, Expr.within_blank _ target, within_blankExprs _ _ arguments]
  | new type arguments => simp [blankAt, within_blankExprs _ _ arguments]
  | assign target value => simp [blankAt, Place.within_blank _ target, Expr.within_blank _ value]
  | binary op left right => simp [blankAt, Expr.within_blank _ left, Expr.within_blank _ right]
  | unary op operand => simp [blankAt, Expr.within_blank _ operand]
  | cast type operand => simp [blankAt, Expr.within_blank _ operand]
  | instanceOf operand type => simp [blankAt, Expr.within_blank _ operand]
  | conditional condition thenExpr elseExpr =>
    simp [blankAt, Expr.within_blank _ condition,
      Expr.within_blank _ thenExpr, Expr.within_blank _ elseExpr]

theorem Place.within_blank (path : List Text) (p : Place) :
    p.blank.within path = (p.within path).map blankAt := by
  cases p with
  | named => rfl
  | field target name => simp [Expr.within_blank _ target]
  | element array index => simp [Expr.within_blank _ array, Expr.within_blank _ index]

theorem within_blankExprs (site : Nat → Site) (index : Nat) (es : List Expr) :
    withinAll site index (blankExprs es) = (withinAll site index es).map blankAt := by
  cases es with
  | nil => rfl
  | cons e rest => simp [Expr.within_blank _ e, within_blankExprs site (index + 1) rest]

end

theorem withinOption_blank (e : Option Expr) :
    withinOption (e.map Expr.blank) = (withinOption e).map blankAt := by
  cases e with
  | none => rfl
  | some e => exact Expr.within_blank .whole e

mutual

theorem Statement.within_blank (s : Statement) : s.blank.within = s.within.map blankAt := by
  cases s with
  | block b => exact Block.within_blank b
  | expression e => exact Expr.within_blank _ e
  | ifThen condition thenBranch => simp [Expr.within_blank, Statement.within_blank thenBranch]
  | ifThenElse condition thenBranch elseBranch =>
    simp [Expr.within_blank, Statement.within_blank thenBranch, Statement.within_blank elseBranch]
  | while_ condition body => simp [Expr.within_blank, Statement.within_blank body]
  | return_ e => exact withinOption_blank e
  | throw_ e => exact Expr.within_blank _ e
  | try_ body catches final =>
    cases final with
    | none => simp [Block.within_blank body, within_blankCatches catches]
    | some final =>
      simp [Block.within_blank body, within_blankCatches catches, Block.within_blank final]
  | empty => rfl

theorem Block.within_blank (b : Block) : b.blank.within = b.within.map blankAt := by
  cases b with
  | mk statements => exact within_blankStatements statements

theorem BlockStatement.within_blank (s : BlockStatement) :
    s.blank.within = s.within.map blankAt := by
  cases s with
  | declaration modifiers type declarators =>
    simp [Declarator.blank, List.flatMap_map, List.map_flatMap, withinOption_blank]
  | statement s => exact Statement.within_blank s

theorem CatchClause.within_blank (c : CatchClause) : c.blank.within = c.within.map blankAt := by
  cases c with
  | mk modifiers types name body => exact Block.within_blank body

theorem within_blankStatements (ss : List BlockStatement) :
    withinStatements (blankStatements ss) = (withinStatements ss).map blankAt := by
  cases ss with
  | nil => rfl
  | cons s rest => simp [BlockStatement.within_blank s, within_blankStatements rest]

theorem within_blankCatches (cs : List CatchClause) :
    withinCatches (blankCatches cs) = (withinCatches cs).map blankAt := by
  cases cs with
  | nil => rfl
  | cons c rest => simp [CatchClause.within_blank c, within_blankCatches rest]

end

namespace MethodDeclaration
variable {m m' : MethodDeclaration}

theorem expressions_blank (m : MethodDeclaration) :
    m.blank.expressions = m.expressions.map blankAt := by
  rw [expressions, expressions, blank]
  cases m.body with
  | none => rfl
  | some b => exact Block.within_blank b

theorem use?_blankAt (node : Site × Expr) : use? (blankAt node) = use? node := by
  obtain ⟨site, e⟩ := node
  cases e with
  | place p => cases p <;> rfl
  | _ => rfl

theorem call?_blankAt (method : Text) (node : Site × Expr) :
    call? method (blankAt node) = (call? method node).map (·.map Expr.blank) := by
  obtain ⟨site, e⟩ := node
  cases e with
  | invoke target name arguments =>
    simp only [blankAt, Expr.blank, call?, blankExprs_eq_map]
    split <;> rfl
  | _ => rfl

theorem uses_eq_of_blank_eq (h : m.blank = m'.blank) : m.uses = m'.uses := by
  have hexpressions := congrArg expressions h
  rw [expressions_blank, expressions_blank] at hexpressions
  have huses := congrArg (List.filterMap use?) hexpressions
  simpa only [uses, List.filterMap_map, Function.comp_def, use?_blankAt] using huses

theorem calls_eq_of_blank_eq (method : Text) (h : m.blank = m'.blank) :
    (m.calls method).map (·.map Expr.blank) = (m'.calls method).map (·.map Expr.blank) := by
  have hexpressions := congrArg expressions h
  rw [expressions_blank, expressions_blank] at hexpressions
  have hcalls := congrArg (List.filterMap (call? method)) hexpressions
  simpa only [calls, List.filterMap_map, List.map_filterMap, Function.comp_def, call?_blankAt]
    using hcalls

end MethodDeclaration

end MemberAccess.Java
