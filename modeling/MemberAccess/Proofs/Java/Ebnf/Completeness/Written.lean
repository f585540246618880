import MemberAccess.Proofs.Java.Ebnf.Action
import MemberAccess.Proofs.Java.Derivation

/-!
# What the written grammar makes of the nonterminals

Each nonterminal of the grammar without left recursion stands for something that can be written by
the published rules: a rule with an item, or, for a tail, a way to go on with what was read before.
-/

namespace MemberAccess.Java.Ebnf

section
variable {V : Type}

/-- One after the other, the lexemes are what `P` says of the values. -/
def Each (P : List Lexeme → V → Prop) : List Lexeme → List V → Prop
  | w, [] => w = []
  | w, v :: vs => ∃ u w', w = u ++ w' ∧ P u v ∧ Each P w' vs

/-- The lexemes are what `P` says of the value, or there is neither. -/
def Perhaps (P : List Lexeme → V → Prop) : List Lexeme → Option V → Prop
  | w, none => w = []
  | w, some v => P w v

/-- The lexemes are the terminal and then what `P` says of the value. -/
def Following (t : Terminal) (P : List Lexeme → V → Prop) (w : List Lexeme) (v : V) : Prop :=
  ∃ x w', w = ⟨t, x⟩ :: w' ∧ P w' v

/-- The rule derives the lexemes with the item of the value. -/
def Written (r : Rule) (item : V → Item) (w : List Lexeme) (v : V) : Prop := r.Image w (item v)

variable {r : Rule} {item : V → Item} {t : Terminal} {ps : List Part} {u w : List Lexeme}
  {xs : List Item}

theorem image_nil : Reading .token Rule.Image [] [] [] := .nil

theorem Reading.many_of_each {vs : List V} (h : Each (Written r item) u vs)
    (hr : Reading .token Rule.Image ps w xs) :
    Reading .token Rule.Image (.many [.rule r] :: ps) (u ++ w) (vs.map item ++ xs) := by
  induction vs generalizing u with
  | nil =>
    obtain rfl := h
    exact .stop hr
  | cons v vs ih =>
    obtain ⟨u, u', rfl, hv, h⟩ := h
    have hone : Reading .token Rule.Image [.rule r] (u ++ []) [item v] := .rule hv .nil
    rw [List.append_nil] at hone
    rw [List.append_assoc]
    have := Reading.more hone (ih h)
    exact this

theorem Reading.many_of_following {vs : List V} (h : Each (Following t (Written r item)) u vs)
    (hr : Reading .token Rule.Image ps w xs) :
    Reading .token Rule.Image (.many [.skip t, .rule r] :: ps) (u ++ w) (vs.map item ++ xs) := by
  induction vs generalizing u with
  | nil =>
    obtain rfl := h
    exact .stop hr
  | cons v vs ih =>
    obtain ⟨_, u', rfl, ⟨x, u, rfl, hv⟩, h⟩ := h
    have hone : Reading .token Rule.Image [.skip t, .rule r] (⟨t, x⟩ :: (u ++ [])) [item v] :=
      .skip (.rule hv .nil)
    rw [List.append_nil] at hone
    rw [List.append_assoc]
    have := Reading.more hone (ih h)
    exact this

/-- One or more, with the terminal between any two. -/
theorem Reading.separated {v : V} {vs : List V} {u' : List Lexeme} (hv : Written r item u v)
    (hvs : Each (Following t (Written r item)) u' vs) (hr : Reading .token Rule.Image ps w xs) :
    Reading .token Rule.Image (.rule r :: .many [.skip t, .rule r] :: ps) (u ++ (u' ++ w))
      ((v :: vs).map item ++ xs) :=
  .rule hv (.many_of_following hvs hr)

theorem Reading.opt_of_perhaps {v : Option V} (h : Perhaps (Written r item) u v)
    (hr : Reading .token Rule.Image ps w xs) :
    Reading .token Rule.Image (.opt [.rule r] :: ps) (u ++ w) ((v.map item).toList ++ xs) := by
  cases v with
  | none =>
    obtain rfl := h
    exact .without hr
  | some v =>
    have hone : Reading .token Rule.Image [.rule r] (u ++ []) [item v] := .rule h .nil
    rw [List.append_nil] at hone
    exact .with_ hone hr

end

def Dimensions : List Lexeme → Nat → Prop
  | w, 0 => w = []
  | w, k + 1 => ∃ x y w', w = ⟨.mark .leftBracket, x⟩ :: ⟨.mark .rightBracket, y⟩ :: w' ∧
      Dimensions w' k

theorem image_dim (x y : Text) :
    Rule.dim.Image [⟨.mark .leftBracket, x⟩, ⟨.mark .rightBracket, y⟩] (.number 1) :=
  .intro (.head _) (.skip (.skip .nil)) rfl

theorem Reading.many_dim {k : Nat} {w : List Lexeme} (h : Dimensions w k) :
    Reading .token Rule.Image [.many [.rule .dim]] w ((List.replicate k 1).map .number) := by
  induction k generalizing w with
  | zero =>
    obtain rfl := h
    exact .stop .nil
  | succ k ih =>
    obtain ⟨x, y, w', rfl, h⟩ := h
    have hone := Reading.rule (image_dim x y) image_nil
    exact Reading.more hone (ih h)

theorem Reading.opt_dims {k : Nat} {u w : List Lexeme} {ps : List Part} {xs : List Item}
    (h : Dimensions u k) (hr : Reading .token Rule.Image ps w xs) :
    Reading .token Rule.Image (.opt [.rule .dims] :: ps) (u ++ w) (Item.ofDimensions k ++ xs) := by
  cases k with
  | zero =>
    obtain rfl := h
    exact .without hr
  | succ k =>
    obtain ⟨x, y, u, rfl, h⟩ := h
    have hdims : Rule.dims.Image (⟨.mark .leftBracket, x⟩ :: ⟨.mark .rightBracket, y⟩ :: u)
        (.number (k + 1)) :=
      .of_rule (.head _) rfl (.rule (image_dim x y) (.many_dim h)) (Action.ofRule_dims (k + 1))
    have hone := Reading.rule hdims image_nil
    rw [List.append_nil] at hone
    exact .with_ hone hr

def Links : List Lexeme → Chain → Prop
  | w, [] => w = []
  | w, .ifHead c :: links => ∃ x y u z t, w = ⟨.keyword .if_, x⟩ :: ⟨.mark .leftParenthesis, y⟩ ::
      (u ++ ⟨.mark .rightParenthesis, z⟩ :: t) ∧ Written .expression .expression u c ∧ Links t links
  | w, .whileHead c :: links => ∃ x y u z t, w = ⟨.keyword .while_, x⟩ ::
      ⟨.mark .leftParenthesis, y⟩ :: (u ++ ⟨.mark .rightParenthesis, z⟩ :: t) ∧
      Written .expression .expression u c ∧ Links t links
  | w, .simple s :: links => ∃ u t, w = u ++ t ∧
      Rule.statement.Image u (.statement (.statement s)) ∧ Links t links
  | w, .elseWord :: links => ∃ x t, w = ⟨.keyword .else_, x⟩ :: t ∧ Links t links

/-- The lexemes go on with what one rule derives so that another derives the whole. -/
def GoesOn (r r' : Rule) (w : List Lexeme) (k : Expr → Expr) : Prop :=
  ∀ {u : List Lexeme} {e : Expr}, r.Image u (.expression e) → r'.Image (u ++ w) (.expression (k e))

/-- What a nonterminal stands for in the written grammar. -/
def IsWritten : (n : Nonterminal) → List Lexeme → n.Value → Prop
  | .many n => Each (IsWritten n)
  | .opt n => Perhaps (IsWritten n)
  | .after t n => Following t (IsWritten n)
  | .flag t => fun w b => (∃ x, w = [⟨t, x⟩]) ∧ b = true ∨ w = [] ∧ b = false
  | .method => Written .methodDeclaration .method
  | .modifier => Written .modifier .modifier
  | .variableModifier => Written .variableModifier .modifier
  | .marker => Written .atName fun x => .modifier (.marker x)
  | .name => Written .qualifiedName .text
  | .simpleName => fun w x => w = [⟨.identifier, x⟩]
  | .result => Written .result .type
  | .throwsClause => fun w cs => cs ≠ [] ∧ Written .throwsClause Item.ofClassTypes w cs
  | .bounds => Written .typeBound Item.ofClassTypes
  | .catchTypes => Written .catchType Item.ofClassTypes
  | .methodBody => Written .methodBody Item.ofBody
  | .formalParameters => Written .formalParameters fun ps => .tuple (ps.map .formalParameter)
  | .formalParameter => Written .formalParameter .formalParameter
  | .type => Written .type Item.ofTypeExpr
  | .primitive => Written .primitiveType fun p => .ofTypeExpr (.primitive p 0)
  | .dimensions => Dimensions
  | .classType => Written .classType Item.ofClassType
  | .classTypePart => Written .classTypePart Item.ofClassTypePart
  | .typeArguments => Written .typeArguments fun as => .tuple (as.map .typeArgument)
  | .typeArgument => Written .typeArgument .typeArgument
  | .typeParameters => Written .typeParameters fun ps => .tuple (ps.map .typeParameter)
  | .typeParameter => Written .typeParameter .typeParameter
  | .block => Written .block Item.ofBlock
  | .blockStatement => Written .blockStatement .statement
  | .declaration => Written .localVariableDeclaration .statement
  | .declarator => Written .variableDeclarator .declarator
  | .chain k => fun w links => Chain.closes k links ∧ Links w links
  | .chainEnd k => fun w links => (links = [] ∨ ∃ j links', k = j + 1 ∧ links = .elseWord :: links' ∧
      Chain.closes j links') ∧ Links w links
  | .simpleStatement => Written .statement fun s => .statement (.statement s)
  | .tryTail => fun w k => ∀ {x : Text} {u : List Lexeme} {b : Block},
      Rule.block.Image u (.ofBlock b) →
      Rule.tryStatement.Image (⟨.keyword .try_, x⟩ :: (u ++ w)) (.statement (.statement (k b)))
  | .catchClause => Written .catchClause .catchClause
  | .expression => Written .expression .expression
  | .operandTail => GoesOn .primary .expression
  | .placeTail => fun w k => ∀ {u : List Lexeme} {p : Place},
      Rule.leftHandSide.Image u (.expression (.place p)) →
      Rule.primary.Image u (.expression (.place p)) →
      Rule.expression.Image (u ++ w) (.expression (k p))
  | .operatorTail => GoesOn .unaryExpression .conditionalExpression
  | .conditional => Written .conditionalExpression .expression
  | .conditionalTail => GoesOn (.binary .disjunction) .conditionalExpression
  | .joined p => Written (.binary p) .expression
  | .operators p => GoesOn (.binary p) (.binary p)
  | .operand p => Written (operand p) .expression
  | .unary => Written .unaryExpression .expression
  | .unsigned | .negationOrCast => Written .unaryExpressionNotPlusMinus .expression
  | .signed => Written .unaryExpression .expression
  | .primary => Written .primary .expression
  | .selections => GoesOn .primary .primary
  | .atom => Written .atom .expression
  | .literal => Written .literal fun l => .expression (.literal l)
  | .arguments => Written .arguments fun es => .tuple (es.map .expression)

/-- What can be written of the symbols of each alternative can be written of the nonterminal. -/
def IsComplete (n : Nonterminal) : Prop :=
  ∀ {a : Alternative Terminal Nonterminal.Value n} {w : List Lexeme} {v : n.Value},
    a ∈ n.alternatives → Grammar.ReadsBy IsWritten a.symbols a.build w v → IsWritten n w v

end MemberAccess.Java.Ebnf
