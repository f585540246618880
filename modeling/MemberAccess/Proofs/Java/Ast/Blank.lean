import MemberAccess.Proofs.Java.Links

/-!
# Trees without the texts of string literals

What a text declares apart from what its string literals say. Putting links together to a statement
does not depend on string literals.
-/

namespace MemberAccess.Java

def Literal.blank (l : Literal) : Literal := if l.kind = .string then ⟨.string, []⟩ else l

mutual

@[simp] def Expr.blank : Expr → Expr
  | .literal l => .literal l.blank
  | .place p => .place p.blank
  | .this => .this
  | .classLiteral t => .classLiteral t
  | .call method arguments => .call method (blankExprs arguments)
  | .invoke target method arguments => .invoke target.blank method (blankExprs arguments)
  | .new type arguments => .new type (blankExprs arguments)
  | .assign target value => .assign target.blank value.blank
  | .binary op left right => .binary op left.blank right.blank
  | .unary op operand => .unary op operand.blank
  | .cast type operand => .cast type operand.blank
  | .instanceOf operand type => .instanceOf operand.blank type
  | .conditional condition thenExpr elseExpr =>
    .conditional condition.blank thenExpr.blank elseExpr.blank

@[simp] def Place.blank : Place → Place
  | .named name => .named name
  | .field target name => .field target.blank name
  | .element array index => .element array.blank index.blank

@[simp] def blankExprs : List Expr → List Expr
  | [] => []
  | e :: rest => e.blank :: blankExprs rest

end

def Declarator.blank (d : Declarator) : Declarator :=
  ⟨d.name, d.dimensions, d.initializer.map Expr.blank⟩

mutual

@[simp] def Statement.blank : Statement → Statement
  | .block b => .block b.blank
  | .expression e => .expression e.blank
  | .ifThen condition thenBranch => .ifThen condition.blank thenBranch.blank
  | .ifThenElse condition thenBranch elseBranch =>
    .ifThenElse condition.blank thenBranch.blank elseBranch.blank
  | .while_ condition body => .while_ condition.blank body.blank
  | .return_ e => .return_ (e.map Expr.blank)
  | .throw_ e => .throw_ e.blank
  | .try_ body catches none => .try_ body.blank (blankCatches catches) none
  | .try_ body catches (some final) => .try_ body.blank (blankCatches catches) (some final.blank)
  | .empty => .empty

@[simp] def Block.blank : Block → Block
  | .mk statements => .mk (blankStatements statements)

@[simp] def BlockStatement.blank : BlockStatement → BlockStatement
  | .declaration modifiers type declarators =>
    .declaration modifiers type (declarators.map Declarator.blank)
  | .statement s => .statement s.blank

@[simp] def CatchClause.blank : CatchClause → CatchClause
  | .mk modifiers types name body => .mk modifiers types name body.blank

@[simp] def blankStatements : List BlockStatement → List BlockStatement
  | [] => []
  | s :: rest => s.blank :: blankStatements rest

@[simp] def blankCatches : List CatchClause → List CatchClause
  | [] => []
  | c :: rest => c.blank :: blankCatches rest

end

def MethodDeclaration.blank (m : MethodDeclaration) : MethodDeclaration :=
  { m with body := m.body.map Block.blank }

def Link.blank : Link → Link
  | .ifHead c => .ifHead c.blank
  | .whileHead c => .whileHead c.blank
  | .simple s => .simple s.blank
  | .elseWord => .elseWord

theorem blankExprs_eq_map (es : List Expr) : blankExprs es = es.map Expr.blank := by
  induction es with
  | nil => rfl
  | cons e es ih => rw [blankExprs, ih, List.map_cons]

theorem blankStatements_eq_map (ss : List BlockStatement) :
    blankStatements ss = ss.map BlockStatement.blank := by
  induction ss with
  | nil => rfl
  | cons s ss ih => rw [blankStatements, ih, List.map_cons]

theorem blankCatches_eq_map (cs : List CatchClause) :
    blankCatches cs = cs.map CatchClause.blank := by
  induction cs with
  | nil => rfl
  | cons c cs ih => rw [blankCatches, ih, List.map_cons]

section Congr

variable {es es' : List Expr} {ss ss' : List BlockStatement}

theorem blankExprs_congr (h : es.map Expr.blank = es'.map Expr.blank) :
    blankExprs es = blankExprs es' := by
  rw [blankExprs_eq_map, blankExprs_eq_map, h]

theorem blankStatements_congr (h : ss.map BlockStatement.blank = ss'.map BlockStatement.blank) :
    blankStatements ss = blankStatements ss' := by
  rw [blankStatements_eq_map, blankStatements_eq_map, h]

end Congr

theorem Statement.blank_try (b : Block) (cs : List CatchClause) (f : Option Block) :
    (Statement.try_ b cs f).blank =
      .try_ b.blank (cs.map CatchClause.blank) (f.map Block.blank) := by
  cases f with
  | none => rw [Statement.blank, blankCatches_eq_map, Option.map_none]
  | some f => rw [Statement.blank, blankCatches_eq_map, Option.map_some]

theorem Expr.eq_of_blank_named {e : Expr} {x : Text} (h : e.blank = .place (.named x)) :
    e = .place (.named x) := by
  cases e with
  | place p =>
    cases p with
    | named y => exact h
    | field | element => simp at h
  | _ => simp at h

namespace Chain

theorem kinds_blank (links : Chain) : kinds (links.map Link.blank) = kinds links := by
  rw [kinds, List.map_map]
  exact List.map_congr_left fun l _ => by cases l <;> rfl

theorem isStatement_blank (links : Chain) :
    isStatement (links.map Link.blank) = isStatement links :=
  Bool.eq_iff_iff.mpr ⟨closes_of_kinds (kinds_blank links), closes_of_kinds (kinds_blank links).symm⟩

theorem splits_blank (links : Chain) :
    splits (links.map Link.blank) =
      (splits links).map fun s => (s.1.map Link.blank, s.2.map Link.blank) := by
  induction links with
  | nil => rfl
  | cons l links ih => cases l <;> simp [splits, Link.blank, ih]

theorem lastSplit?_blank (links : Chain) :
    lastSplit? (links.map Link.blank) =
      (lastSplit? links).map fun s => (s.1.map Link.blank, s.2.map Link.blank) := by
  rw [lastSplit?, splits_blank, ← List.map_reverse, List.find?_map, lastSplit?]
  congr 2
  funext s
  simp [isStatement_blank]

theorem statementOfSize_blank (n : Nat) (links : Chain) :
    statementOfSize n (links.map Link.blank) = (statementOfSize n links).blank := by
  induction n generalizing links with
  | zero =>
    cases links with
    | nil => rfl
    | cons l rest => cases l <;> rfl
  | succ n ih =>
    cases links with
    | nil => rfl
    | cons l rest =>
      cases l with
      | ifHead c =>
        simp only [List.map_cons, Link.blank, statementOfSize, lastSplit?_blank]
        cases lastSplit? rest with
        | none => simp only [Option.map_none, ih, Statement.blank]
        | some s => simp only [Option.map_some, ih, Statement.blank]
      | whileHead c => simp only [List.map_cons, Link.blank, statementOfSize, ih, Statement.blank]
      | simple s => rfl
      | elseWord => rfl

theorem statement_blank (links : Chain) :
    Chain.statement (links.map Link.blank) = links.statement.blank := by
  rw [statement, List.length_map, statementOfSize_blank, statement]

end Chain

end MemberAccess.Java
