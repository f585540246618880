import MemberAccess.Proofs.Grammar.Follow
import MemberAccess.Proofs.Java.First

/-!
# What can follow in method text

A type is followed by other lexemes where it is the class of a literal, where it stands after
`instanceof`, and elsewhere. For each of these places the table tells what can follow each
nonterminal, and with few exceptions the alternatives begin with different terminals.
-/

namespace MemberAccess.Java

/-- Where a type stands. -/
inductive Context where
  | plain
  /-- Before the word `class`. -/
  | literal
  /-- After the word `instanceof`. -/
  | tested
  deriving DecidableEq, Repr

instance : LawfulBEq (Context × Nonterminal) := inferInstance

def Precedence.weaker (p : Precedence) : List Terminal :=
  (strongestFirst.drop (p.height + 1)).flatMap (·.terminals)

namespace Nonterminal

/-- The place of a type in an alternative of the first nonterminal. -/
def inside (c : Context) : Nonterminal → Nonterminal → Context
  | operators _, type => .tested
  | atom, result => .literal
  | result, type | type, classType | type, dimensions | dimensions, dimensions
  | classType, classTypePart | classType, many (after (.mark .dot) classTypePart)
  | classTypePart, opt typeArguments
  | many (after (.mark .dot) classTypePart), after (.mark .dot) classTypePart
  | many (after (.mark .dot) classTypePart), many (after (.mark .dot) classTypePart)
  | after (.mark .dot) classTypePart, classTypePart => c
  | _, _ => .plain

abbrev expressionEnd : List Terminal :=
  [.mark .rightParenthesis, .mark .rightBracket, .mark .comma, .mark .semicolon, .mark .colon]

abbrev statementEnd : List Terminal := .mark .rightBrace :: variableModifierFirst ++ chainFirst

abbrev typeEnd : Context → List Terminal
  | .plain => [.identifier, .mark .ellipsis, .mark .comma, .mark .greater]
  | .literal =>
    [.mark .dot, .mark .comma, .mark .greater, .mark .rightParenthesis, .identifier]
  | .tested =>
    Precedence.terminals .relational ++ Precedence.weaker .relational ++
      .mark .question :: expressionEnd

abbrev classTypeEnd : Context → List Terminal
  | .plain =>
    typeEnd .plain ++
      [.mark .leftBracket, .mark .rightParenthesis, .mark .leftParenthesis, .mark .leftBrace,
       .mark .semicolon, .mark .ampersand, .mark .bar]
  | c => .mark .leftBracket :: typeEnd c

/-- The terminals that can follow a nonterminal at a place. -/
def follow (c : Context) : Nonterminal → List Terminal
  | many modifier => [.mark .less, .keyword .void] ++ typeFirst
  | modifier | marker | name | many (after _ simpleName) =>
    modifierFirst ++ [.mark .less, .keyword .void] ++ typeFirst
  | after _ simpleName | simpleName =>
    .mark .dot :: modifierFirst ++ [.mark .less, .keyword .void] ++ typeFirst
  | many variableModifier => typeFirst
  | variableModifier => variableModifierFirst ++ typeFirst
  | opt typeParameters | typeParameters => .keyword .void :: typeFirst
  | many (after _ typeParameter) | many (after _ typeArgument) => [.mark .greater]
  | typeParameter | after _ typeParameter | opt bounds | bounds | typeArgument
  | after _ typeArgument | many (after (.mark .ampersand) classType) =>
    [.mark .comma, .mark .greater]
  | after (.mark .ampersand) classType => [.mark .ampersand, .mark .comma, .mark .greater]
  | opt throwsClause | throwsClause | many (after (.mark .comma) classType) =>
    [.mark .leftBrace, .mark .semicolon]
  | after (.mark .comma) classType => [.mark .comma, .mark .leftBrace, .mark .semicolon]
  | flag _ | catchTypes | many (after (.mark .bar) classType) => [.identifier]
  | after (.mark .bar) classType => [.mark .bar, .identifier]
  | result => typeEnd c
  | formalParameters => [.keyword .throws, .mark .leftBrace, .mark .semicolon]
  | many (after _ formalParameter) | many (after _ expression) => [.mark .rightParenthesis]
  | formalParameter | after _ formalParameter | after (.mark .comma) expression =>
    [.mark .comma, .mark .rightParenthesis]
  | block => [.keyword .else_, .keyword .catch_, .keyword .finally_] ++ statementEnd
  | many blockStatement => [.mark .rightBrace]
  | blockStatement | chain _ | chainEnd _ => statementEnd
  | declaration | many (after _ declarator) | opt expression => [.mark .semicolon]
  | declarator | after _ declarator | opt (after _ expression) | after (.mark .equal) expression =>
    [.mark .comma, .mark .semicolon]
  | simpleStatement | tryTail | opt (after _ block) | after _ block =>
    .keyword .else_ :: statementEnd
  | catchClause => [.keyword .catch_, .keyword .finally_, .keyword .else_] ++ statementEnd
  | many catchClause => [.keyword .finally_, .keyword .else_] ++ statementEnd
  | expression | operandTail | placeTail | operatorTail | conditional | conditionalTail =>
    expressionEnd
  | arguments | atom | literal => selectionFirst ++ operatorFirst ++ expressionEnd
  | joined p | operators p => p.weaker ++ .mark .question :: expressionEnd
  | operand p => p.terminals ++ p.weaker ++ .mark .question :: expressionEnd
  | unary | unsigned | signed | negationOrCast | primary | selections =>
    operatorFirst ++ expressionEnd
  | type => typeEnd c
  | dimensions => .mark .equal :: .mark .semicolon :: .mark .rightParenthesis :: typeEnd c
  | classType | many (after _ classTypePart) => classTypeEnd c
  | classTypePart | opt typeArguments | after _ classTypePart => .mark .dot :: classTypeEnd c
  | typeArguments | primitive =>
    .mark .dot :: classTypeEnd .plain ++ classTypeEnd .literal ++ classTypeEnd .tested
  | _ => []

def partsOfTypes : List Nonterminal :=
  [type, classType, classTypePart, opt typeArguments, after (.mark .dot) classTypePart,
   many (after (.mark .dot) classTypePart), dimensions]

def typeArgumentParts : List Nonterminal :=
  [primitive, typeArguments, typeArgument, many (next typeArgument), next typeArgument]

/-- The nonterminals of types that are not tested, with their places. -/
def typePlaces : List (Context × Nonterminal) :=
  (partsOfTypes ++ typeArgumentParts).map (.plain, ·) ++ partsOfTypes.map (.literal, ·)

def headerParts : List Nonterminal :=
  [method, many modifier, modifier, marker, name, many (after (.mark .dot) simpleName),
   after (.mark .dot) simpleName, simpleName, opt typeParameters, typeParameters,
   many (next typeParameter), next typeParameter, typeParameter, opt bounds, bounds,
   many (after (.mark .ampersand) classType), after (.mark .ampersand) classType, result,
   formalParameters, many (next formalParameter), next formalParameter, formalParameter,
   many variableModifier, variableModifier, flag (.mark .ellipsis), opt throwsClause, throwsClause,
   many (next classType), next classType, methodBody]

def statementParts : List Nonterminal :=
  [block, many blockStatement, blockStatement, declaration, many (next declarator),
   next declarator, declarator, opt (after (.mark .equal) expression),
   after (.mark .equal) expression, simpleStatement, opt expression, tryTail, many catchClause,
   catchClause, catchTypes, many (after (.mark .bar) classType), after (.mark .bar) classType,
   opt (after (.keyword .finally_) block), after (.keyword .finally_) block]

def expressionParts : List Nonterminal :=
  [expression, operandTail, placeTail, operatorTail, conditional, conditionalTail, unary, unsigned,
   signed, negationOrCast, primary, selections, atom, literal, arguments, many (next expression),
   next expression] ++
  Precedence.strongestFirst.flatMap fun p => [joined p, operators p, operand p]

/-- The nonterminals that a method is made of, with their places. -/
def places : List (Context × Nonterminal) :=
  (headerParts ++ statementParts ++ expressionParts).map (.plain, ·) ++
    (.literal, result) :: partsOfTypes.map (.tested, ·) ++ typePlaces

/-- What comes after the nonterminal `m` in the alternatives of `n`. -/
def rests (n m : Nonterminal) : List (List (Symbol Terminal Nonterminal)) :=
  n.alternatives.flatMap fun a => Grammar.afters m a.symbols

theorem mem_rests {n m : Nonterminal} {a : Alternative Terminal Value n}
    {ys : List (Symbol Terminal Nonterminal)} (ha : a ∈ n.alternatives)
    (hy : ys ∈ Grammar.afters m a.symbols) : ys ∈ rests n m :=
  List.mem_flatMap.mpr ⟨a, ha, hy⟩

/-- Whether a nonterminal stands at a place in some method. -/
def occurs (c : Context) : Nonterminal → Bool
  | chain _ | chainEnd _ => c = .plain
  | n => (c, n) ∈ places

/-- Whether a symbol of an alternative of `n` is a terminal or a nonterminal that occurs there. -/
def occursIn (c : Context) (n : Nonterminal) : Symbol Terminal Nonterminal → Bool
  | .node m => occurs (inside c n m) m
  | _ => true

/-- What follows a nonterminal in an alternative of another is in the table. -/
def IsFollowed (c : Context) (n : Nonterminal) : Prop :=
  ∀ a ∈ n.alternatives, a.symbols.all (occursIn c n) ∧
    firstTable.Follows (fun m => follow (inside c n m) m) (follow c n) a.symbols

instance (c : Context) (n : Nonterminal) : Decidable (IsFollowed c n) :=
  inferInstanceAs (Decidable (∀ a ∈ n.alternatives, a.symbols.all (occursIn c n) ∧
    firstTable.Follows (fun m => follow (inside c n m) m) (follow c n) a.symbols))

/-- The first lexemes tell the alternatives apart. -/
def IsChosen (c : Context) (n : Nonterminal) : Prop :=
  n.alternatives.Pairwise fun a a' => firstTable.differLater (follow c n) a.symbols a'.symbols

instance (c : Context) (n : Nonterminal) : Decidable (IsChosen c n) :=
  inferInstanceAs (Decidable (List.Pairwise _ _))

/-- The nonterminals with alternatives that can begin alike. -/
def clashes : List (Context × Nonterminal) :=
  [(.plain, blockStatement), (.plain, expression), (.plain, unsigned), (.plain, primary),
   (.tested, opt typeArguments), (.literal, many (after (.mark .dot) classTypePart))]

theorem isFollowed_of_mem : ∀ p ∈ places, IsFollowed p.1 p.2 := by decide +kernel

theorem isChosen_of_mem : ∀ p ∈ places, p ∉ clashes → IsChosen p.1 p.2 := by decide +kernel

theorem IsFollowed.of_occurs {c : Context} {n : Nonterminal} (h : occurs c n) : IsFollowed c n := by
  unfold occurs at h
  split at h
  · obtain rfl := of_decide_eq_true h
    exact of_decide_eq_true rfl
  · rename_i k
    obtain rfl := of_decide_eq_true h
    cases k <;> exact of_decide_eq_true rfl
  · exact isFollowed_of_mem _ (of_decide_eq_true h)

theorem IsChosen.of_occurs {c : Context} {n : Nonterminal} (h : occurs c n) (hc : (c, n) ∉ clashes) :
    IsChosen c n := by
  unfold occurs at h
  split at h
  · obtain rfl := of_decide_eq_true h
    exact of_decide_eq_true rfl
  · rename_i k
    obtain rfl := of_decide_eq_true h
    cases k <;> exact of_decide_eq_true rfl
  · exact isChosen_of_mem _ (of_decide_eq_true h) hc

/-- A nonterminal occurs where the stream is read, and what is left begins as the table says. -/
def Stands (c : Context) (n : Nonterminal) (r : List Lexeme) : Prop :=
  occurs c n ∧ Heads (follow c n) r

theorem each_stands {c : Context} {n : Nonterminal} {a : Alternative Terminal Value n}
    {s r : List Lexeme} (ha : a ∈ n.alternatives) (h : Stands c n r) :
    grammar.Each (fun m _ r => Stands (inside c n m) m r) a.symbols s r := by
  obtain ⟨ho, hf⟩ := IsFollowed.of_occurs h.1 a ha
  refine Grammar.Each.and (.of_afters fun m _ hys _ _ _ => ?_) (Grammar.Table.each_of_follows hf h.2)
  exact List.all_eq_true.mp ho _ (Grammar.mem_of_mem_afters hys)

theorem pairwise_apart {c : Context} {n : Nonterminal} {P : List Lexeme → List Lexeme → Prop}
    (h : (c, n) ∉ clashes) (hP : ∀ s r, P s r → Stands c n r) :
    n.alternatives.Pairwise fun a a' => grammar.Apart P a.symbols a'.symbols := by
  by_cases ho : occurs c n
  · refine (IsChosen.of_occurs ho h).imp fun hd => ?_
    exact Grammar.Table.apart_of_differLater (fun s r hr => (hP s r hr).2) hd
  · exact List.pairwise_of_forall fun _ _ _ _ _ _ _ _ _ hr _ => ho (hP _ _ hr).1

end Nonterminal

end MemberAccess.Java
