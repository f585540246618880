import MemberAccess.Grammar.Reader
import MemberAccess.Java.Nonterminal

/-!
# The grammar of method declarations

No nonterminal here begins with itself. Chains of operators of one precedence lean to the left,
since what follows an operand is a function of it. An expression that begins with a name or ends in
a selection is a place, and only after a place can an equals sign follow.

In a chain an `else` needs an open `if`; to which of them it belongs is settled when the chain is
complete. The order of alternatives settles the one other ambiguity: a statement of a block that can
be a declaration is one.
-/

namespace MemberAccess.Java

/-- The binary operators of a precedence. -/
def Precedence.operators (p : Precedence) : List BinaryOp :=
  BinaryOp.all.filter (·.precedence = p)

namespace Nonterminal

abbrev Alternatives (n : Nonterminal) := List (Alternative Terminal Value n)

/-- A mark that only structures the text. -/
abbrev mark (m : Mark) : Symbol Terminal Nonterminal := .skip (.mark m)

/-- A keyword that only structures the text. -/
abbrev word (k : Keyword) : Symbol Terminal Nonterminal := .skip (.keyword k)

/-- One more `n` after a comma. -/
abbrev next (n : Nonterminal) : Nonterminal := after (.mark .comma) n

def expressionAlternatives : Alternatives expression :=
  [⟨[.take .identifier, .node placeTail], fun x k => k (.named x)⟩,
   ⟨[.take .identifier, .node arguments, .node operandTail], fun x args k => k (.call x args)⟩,
   ⟨[.node atom, .node operandTail], fun e k => k e⟩,
   ⟨[.node signed, .node operatorTail], fun e k => k e⟩,
   ⟨[.node negationOrCast, .node operatorTail], fun e k => k e⟩]

def operandTailAlternatives : Alternatives operandTail :=
  [⟨[mark .dot, .take .identifier, .node placeTail], fun x k e => k (.field e x)⟩,
   ⟨[mark .dot, .take .identifier, .node arguments, .node operandTail],
    fun x args k e => k (.invoke e x args)⟩,
   ⟨[mark .leftBracket, .node expression, mark .rightBracket, .node placeTail],
    fun i k e => k (.element e i)⟩,
   ⟨[.node operatorTail], fun k => k⟩]

def placeTailAlternatives : Alternatives placeTail :=
  [⟨[mark .equal, .node expression], fun value target => .assign target value⟩,
   ⟨[.node operandTail], fun k p => k (.place p)⟩]

def operatorTailAlternatives : Alternatives operatorTail :=
  [⟨[.node (operators .multiplicative), .node (operators .additive), .node (operators .relational),
     .node (operators .equality), .node (operators .conjunction), .node (operators .disjunction),
     .node conditionalTail],
    fun multiplicative additive relational equality conjunction disjunction conditional e =>
      conditional (disjunction (conjunction (equality (relational (additive
        (multiplicative e))))))⟩]

def conditionalAlternatives : Alternatives conditional :=
  [⟨[.node (joined .disjunction), .node conditionalTail], fun e k => k e⟩]

def conditionalTailAlternatives : Alternatives conditionalTail :=
  [⟨[mark .question, .node expression, mark .colon, .node conditional],
    fun t e c => .conditional c t e⟩,
   ⟨[], fun e => e⟩]

def joinedAlternatives (p : Precedence) : Alternatives (joined p) :=
  [⟨[.node (operand p), .node (operators p)], fun e k => k e⟩]

/-- An operator with its right operand, and what follows. -/
def operatorAlternative (p : Precedence) (op : BinaryOp) :
    Alternative Terminal Value (operators p) :=
  ⟨[mark op.mark, .node (operand p), .node (operators p)],
    fun right k left => k (.binary op left right)⟩

def operatorsAlternatives (p : Precedence) : Alternatives (operators p) :=
  p.operators.map (operatorAlternative p) ++
  (if p = .relational then
    [⟨[word .instanceof, .node type, .node (operators p)], fun t k e => k (.instanceOf e t)⟩]
  else []) ++
  [⟨[], fun e => e⟩]

def operandAlternatives : (p : Precedence) → Alternatives (operand p)
  | .disjunction => [⟨[.node (joined .conjunction)], fun e => e⟩]
  | .conjunction => [⟨[.node (joined .equality)], fun e => e⟩]
  | .equality => [⟨[.node (joined .relational)], fun e => e⟩]
  | .relational => [⟨[.node (joined .additive)], fun e => e⟩]
  | .additive => [⟨[.node (joined .multiplicative)], fun e => e⟩]
  | .multiplicative => [⟨[.node unary], fun e => e⟩]

def signedAlternatives : Alternatives signed :=
  [⟨[mark .plus, .node unary], fun e => .unary .plus e⟩,
   ⟨[mark .minus, .node unary], fun e => .unary .minus e⟩]

def negationOrCastAlternatives : Alternatives negationOrCast :=
  [⟨[mark .bang, .node unary], fun e => .unary .not e⟩,
   ⟨[mark .leftParenthesis, .node primitive, .node dimensions, mark .rightParenthesis, .node unary],
    fun p n e => .cast (.primitive p n) e⟩,
   ⟨[mark .leftParenthesis, .node classType, .node dimensions, mark .rightParenthesis,
     .node unsigned],
    fun c n e => .cast (.reference c n) e⟩]

def primaryAlternatives : Alternatives primary :=
  [⟨[.take .identifier, .node selections], fun x k => k (.place (.named x))⟩,
   ⟨[.take .identifier, .node arguments, .node selections], fun x args k => k (.call x args)⟩,
   ⟨[.node atom, .node selections], fun e k => k e⟩]

def selectionsAlternatives : Alternatives selections :=
  [⟨[mark .dot, .take .identifier, .node selections], fun x k e => k (.place (.field e x))⟩,
   ⟨[mark .dot, .take .identifier, .node arguments, .node selections],
    fun x args k e => k (.invoke e x args)⟩,
   ⟨[mark .leftBracket, .node expression, mark .rightBracket, .node selections],
    fun i k e => k (.place (.element e i))⟩,
   ⟨[], fun e => e⟩]

def atomAlternatives : Alternatives atom :=
  [⟨[.node literal], fun l => .literal l⟩,
   ⟨[.node result, mark .dot, word .class_], fun t => .classLiteral t⟩,
   ⟨[word .this], .this⟩,
   ⟨[mark .leftParenthesis, .node expression, mark .rightParenthesis], fun e => e⟩,
   ⟨[word .new, .node classType, .node arguments], fun c args => .new c args⟩]

def literalAlternatives : Alternatives literal :=
  [⟨[.take .integer], fun x => .ofInteger x⟩,
   ⟨[.take .floating], fun x => .ofFloating x⟩,
   ⟨[.take (.keyword .true_)], fun x => ⟨.boolean, x⟩⟩,
   ⟨[.take (.keyword .false_)], fun x => ⟨.boolean, x⟩⟩,
   ⟨[.take .character], fun x => ⟨.char, x⟩⟩,
   ⟨[.take .string], fun x => ⟨.string, x⟩⟩,
   ⟨[.take (.keyword .null)], fun x => ⟨.null, x⟩⟩]

def argumentsAlternatives : Alternatives arguments :=
  [⟨[mark .leftParenthesis, mark .rightParenthesis], []⟩,
   ⟨[mark .leftParenthesis, .node expression, .node (many (next expression)),
     mark .rightParenthesis],
    fun e es => e :: es⟩]

def blockStatementAlternatives : Alternatives blockStatement :=
  [⟨[.node declaration, mark .semicolon], fun d => d⟩,
   ⟨[.node (chain 0)], fun links => .statement links.statement⟩]

def declarationAlternatives : Alternatives declaration :=
  [⟨[.node (many variableModifier), .node type, .node declarator, .node (many (next declarator))],
    fun modifiers t d ds => .declaration modifiers t (d :: ds)⟩]

def declaratorAlternatives : Alternatives declarator :=
  [⟨[.take .identifier, .node dimensions, .node (opt (after (.mark .equal) expression))],
    fun x n e => ⟨x, n, e⟩⟩]

def chainAlternatives (openIfs : Nat) : Alternatives (chain openIfs) :=
  [⟨[.node simpleStatement, .node (chainEnd openIfs)], fun s links => .simple s :: links⟩,
   ⟨[word .if_, mark .leftParenthesis, .node expression, mark .rightParenthesis,
     .node (chain (openIfs + 1))],
    fun c links => .ifHead c :: links⟩,
   ⟨[word .while_, mark .leftParenthesis, .node expression, mark .rightParenthesis,
     .node (chain openIfs)],
    fun c links => .whileHead c :: links⟩]

def chainEndAlternatives : (openIfs : Nat) → Alternatives (chainEnd openIfs)
  | 0 => [⟨[], []⟩]
  | n + 1 => [⟨[word .else_, .node (chain n)], fun links => .elseWord :: links⟩, ⟨[], []⟩]

def simpleStatementAlternatives : Alternatives simpleStatement :=
  [⟨[.node block], fun b => .block b⟩,
   ⟨[word .try_, .node block, .node tryTail], fun b k => k b⟩,
   ⟨[word .return_, .node (opt expression), mark .semicolon], fun e => .return_ e⟩,
   ⟨[word .throw_, .node expression, mark .semicolon], fun e => .throw_ e⟩,
   ⟨[.node expression, mark .semicolon], fun e => .expression e⟩,
   ⟨[mark .semicolon], .empty⟩]

def tryTailAlternatives : Alternatives tryTail :=
  [⟨[.node catchClause, .node (many catchClause), .node (opt (after (.keyword .finally_) block))],
    fun c cs final body => .try_ body (c :: cs) final⟩,
   ⟨[word .finally_, .node block], fun final body => .try_ body [] (some final)⟩]

def catchClauseAlternatives : Alternatives catchClause :=
  [⟨[word .catch_, mark .leftParenthesis, .node (many variableModifier), .node catchTypes,
     .take .identifier, mark .rightParenthesis, .node block],
    fun modifiers types x b => .mk modifiers types x b⟩]

def typeAlternatives : Alternatives type :=
  [⟨[.node primitive, .node dimensions], fun p n => .primitive p n⟩,
   ⟨[.node classType, .node dimensions], fun c n => .reference c n⟩]

def dimensionsAlternatives : Alternatives dimensions :=
  [⟨[mark .leftBracket, mark .rightBracket, .node dimensions], fun n => n + 1⟩,
   ⟨[], (0 : Nat)⟩]

def classTypeAlternatives : Alternatives classType :=
  [⟨[.node classTypePart, .node (many (after (.mark .dot) classTypePart))],
    fun part parts => .ofParts (part :: parts)⟩]

def classTypePartAlternatives : Alternatives classTypePart :=
  [⟨[.take .identifier, .node (opt typeArguments)], fun x args => (x, args.getD [])⟩]

def typeArgumentsAlternatives : Alternatives typeArguments :=
  [⟨[mark .less, .node typeArgument, .node (many (next typeArgument)), mark .greater],
    fun a as => a :: as⟩]

def typeArgumentAlternatives : Alternatives typeArgument :=
  [⟨[.node type], fun t => .type t⟩,
   ⟨[mark .question], .any⟩,
   ⟨[mark .question, word .extends_, .node type], fun t => .extending t⟩,
   ⟨[mark .question, word .super, .node type], fun t => .superOf t⟩]

def typeParametersAlternatives : Alternatives typeParameters :=
  [⟨[mark .less, .node typeParameter, .node (many (next typeParameter)), mark .greater],
    fun p ps => p :: ps⟩]

def typeParameterAlternatives : Alternatives typeParameter :=
  [⟨[.take .identifier, .node (opt bounds)], fun x bs => ⟨x, bs.getD []⟩⟩]

def boundsAlternatives : Alternatives bounds :=
  [⟨[word .extends_, .node classType, .node (many (after (.mark .ampersand) classType))],
    fun c cs => c :: cs⟩]

def methodAlternatives : Alternatives method :=
  [⟨[.node (many modifier), .node (opt typeParameters), .node result, .take .identifier,
     .node formalParameters, .node (opt throwsClause), .node methodBody],
    fun modifiers typeParameters result x parameters throws body =>
      ⟨modifiers, typeParameters.getD [], result, x, parameters, throws.getD [], body, none⟩⟩]

def formalParametersAlternatives : Alternatives formalParameters :=
  [⟨[mark .leftParenthesis, mark .rightParenthesis], []⟩,
   ⟨[mark .leftParenthesis, .node formalParameter, .node (many (next formalParameter)),
     mark .rightParenthesis],
    fun p ps => p :: ps⟩]

def formalParameterAlternatives : Alternatives formalParameter :=
  [⟨[.node (many variableModifier), .node type, .node (flag (.mark .ellipsis)), .take .identifier],
    fun modifiers t isVariadic x => ⟨modifiers, t, isVariadic, x⟩⟩]

/-- The ways to write a nonterminal, the preferred ones first. -/
def alternatives : (n : Nonterminal) → Alternatives n
  | many n => [⟨[.node n, .node (many n)], fun v vs => v :: vs⟩, ⟨[], []⟩]
  | opt n => [⟨[.node n], fun v => some v⟩, ⟨[], none⟩]
  | after t n => [⟨[.skip t, .node n], fun v => v⟩]
  | flag t => [⟨[.skip t], true⟩, ⟨[], false⟩]
  | method => methodAlternatives
  | modifier =>
    ModifierKeyword.all.map (fun k => ⟨[word (.modifier k)], .keyword k⟩) ++
    [⟨[.node marker], fun x => .marker x⟩]
  | variableModifier =>
    [⟨[word (.modifier .final)], .keyword .final⟩, ⟨[.node marker], fun x => .marker x⟩]
  | marker => [⟨[mark .at_, .node name], fun x => x⟩]
  | name =>
    [⟨[.take .identifier, .node (many (after (.mark .dot) simpleName))],
      fun x xs => Text.join "." (x :: xs)⟩]
  | simpleName => [⟨[.take .identifier], fun x => x⟩]
  | result => [⟨[.node type], fun t => .type t⟩, ⟨[word .void], .void⟩]
  | throwsClause =>
    [⟨[word .throws, .node classType, .node (many (next classType))], fun c cs => c :: cs⟩]
  | methodBody => [⟨[.node block], fun b => some b⟩, ⟨[mark .semicolon], none⟩]
  | formalParameters => formalParametersAlternatives
  | formalParameter => formalParameterAlternatives
  | type => typeAlternatives
  | primitive => Primitive.all.map fun p => ⟨[word (.primitive p)], p⟩
  | dimensions => dimensionsAlternatives
  | classType => classTypeAlternatives
  | classTypePart => classTypePartAlternatives
  | typeArguments => typeArgumentsAlternatives
  | typeArgument => typeArgumentAlternatives
  | typeParameters => typeParametersAlternatives
  | typeParameter => typeParameterAlternatives
  | bounds => boundsAlternatives
  | block => [⟨[mark .leftBrace, .node (many blockStatement), mark .rightBrace], fun ss => .mk ss⟩]
  | blockStatement => blockStatementAlternatives
  | declaration => declarationAlternatives
  | declarator => declaratorAlternatives
  | chain k => chainAlternatives k
  | chainEnd k => chainEndAlternatives k
  | simpleStatement => simpleStatementAlternatives
  | tryTail => tryTailAlternatives
  | catchClause => catchClauseAlternatives
  | catchTypes =>
    [⟨[.node classType, .node (many (after (.mark .bar) classType))], fun c cs => c :: cs⟩]
  | expression => expressionAlternatives
  | operandTail => operandTailAlternatives
  | placeTail => placeTailAlternatives
  | operatorTail => operatorTailAlternatives
  | conditional => conditionalAlternatives
  | conditionalTail => conditionalTailAlternatives
  | joined p => joinedAlternatives p
  | operators p => operatorsAlternatives p
  | operand p => operandAlternatives p
  | unary =>
    [⟨[.node signed], fun e => e⟩, ⟨[.node unsigned], fun e => e⟩]
  | unsigned =>
    [⟨[.node primary], fun e => e⟩, ⟨[.node negationOrCast], fun e => e⟩]
  | signed => signedAlternatives
  | negationOrCast => negationOrCastAlternatives
  | primary => primaryAlternatives
  | selections => selectionsAlternatives
  | atom => atomAlternatives
  | literal => literalAlternatives
  | arguments => argumentsAlternatives

end Nonterminal

/-- The steps from a precedence down to the operands of all operators. -/
def Precedence.height : Precedence → Nat
  | multiplicative => 0
  | additive => 1
  | relational => 2
  | equality => 3
  | conjunction => 4
  | disjunction => 5

namespace Nonterminal

/-- Whether nothing at all can be read as the nonterminal. -/
def nullable : Nonterminal → Bool
  | many _ | opt _ | flag _ | dimensions => true
  | operandTail | placeTail | operatorTail | conditionalTail | operators _ | selections => true
  | chainEnd _ => true
  | _ => false

/-- Whether only what cannot be empty is repeated. -/
def proper : Nonterminal → Bool
  | many n => n.proper && !n.nullable
  | opt n | after _ n => n.proper
  | _ => true

/-- More than the choices in a row that a nonterminal needs before it comes to a terminal. -/
def weight : Nonterminal → Nat
  | many n | opt n => weight n + 1
  | modifier | variableModifier | methodBody | classType | tryTail => 2
  | type | catchTypes => 3
  | typeArgument | result => 4
  | atom => 5
  | expression | primary => 6
  | unsigned | declaration | formalParameter | simpleStatement => 7
  | unary | operatorTail | chain _ => 8
  | operandTail | blockStatement => 9
  | placeTail | method => 10
  | operand p => 9 + 2 * p.height
  | joined p => 10 + 2 * p.height
  | conditional => 21
  | _ => 1

theorem nullable_many (n : Nonterminal) : (many n).nullable = true := rfl

theorem nullable_opt (n : Nonterminal) : (opt n).nullable = true := rfl

theorem weight_many (n : Nonterminal) : (many n).weight = n.weight + 1 := rfl

theorem weight_opt (n : Nonterminal) : (opt n).weight = n.weight + 1 := rfl

/-- Whether a symbol is a terminal or a proper nonterminal. -/
def isProperSymbol : Symbol Terminal Nonterminal → Bool
  | .node n => n.proper
  | _ => true

/-- What a bounded grammar asks of the alternatives. -/
theorem forall_alternatives (n : Nonterminal) (h : n.proper) :
    ∀ a ∈ n.alternatives,
      a.symbols.all isProperSymbol ∧
      (a.symbols.all (·.isNullable nullable) → n.nullable) ∧
      Grammar.choices weight nullable a.symbols < n.weight := by
  cases n with
  | many n =>
    obtain ⟨hp, hn⟩ : n.proper = true ∧ n.nullable = false := by
      simpa [proper] using h
    simp [alternatives, isProperSymbol, proper, hp, hn, nullable_many, weight_many,
      Grammar.choices]
  | opt n =>
    have hp : n.proper = true := h
    simp [alternatives, isProperSymbol, hp, nullable_opt, weight_opt, Grammar.choices]
  | after t n =>
    have hp : n.proper = true := h
    simp [alternatives, isProperSymbol, hp, Symbol.isNullable, weight, Grammar.choices]
  | flag t =>
    simp [alternatives, isProperSymbol, Symbol.isNullable, nullable, weight, Grammar.choices]
  | chain k =>
    simp [alternatives, chainAlternatives, isProperSymbol, proper, Symbol.isNullable, nullable,
      weight, Grammar.choices]
  | chainEnd k =>
    cases k <;>
      simp [alternatives, chainEndAlternatives, isProperSymbol, proper, Symbol.isNullable,
        nullable, weight, Grammar.choices]
  | operators p => cases p <;> decide
  | operand p => cases p <;> decide
  | joined p => cases p <;> decide
  | _ => decide

end Nonterminal

/-- The grammar of method declarations. -/
def grammar : Grammar.Bounded Terminal Nonterminal where
  Value := Nonterminal.Value
  alternatives := Nonterminal.alternatives
  proper := Nonterminal.proper
  nullable := Nonterminal.nullable
  weight := Nonterminal.weight
  proper_of_mem := fun hn ha hm =>
    List.all_eq_true.mp (Nonterminal.forall_alternatives _ hn _ ha).1 _ hm
  nullable_of_mem := fun hn ha => (Nonterminal.forall_alternatives _ hn _ ha).2.1
  choices_lt_weight := fun hn ha => (Nonterminal.forall_alternatives _ hn _ ha).2.2

end MemberAccess.Java
