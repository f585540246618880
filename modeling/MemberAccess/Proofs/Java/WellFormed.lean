import MemberAccess.Proofs.Grammar.Related
import MemberAccess.Proofs.Java.Ast.Sound
import MemberAccess.Proofs.Java.Chain
import MemberAccess.Proofs.Java.Method

/-!
# Parsed methods are well-formed

Each alternative of the grammar makes a sound tree of sound parts, where a tail makes one of a sound
operand. The method that a text declares is therefore well-formed.
-/

namespace MemberAccess.Java

open Json

namespace Chain

def IsSoundLink : Link → Prop
  | .ifHead c | .whileHead c => IsSound c.toJson
  | .simple s => IsSound s.toJson
  | .elseWord => True

theorem isSound_statementOfSize {n : Nat} {links : Chain} (h : ∀ l ∈ links, IsSoundLink l) :
    IsSound (statementOfSize n links).toJson := by
  fun_induction statementOfSize n links with
  | case1 n c rest a b hs iha ihb =>
    obtain ⟨hc, h⟩ := List.forall_mem_cons.mp h
    rw [(lastSplit?_eq_some hs).1, List.forall_mem_append, List.forall_mem_cons] at h
    exact isSound_ifThenElse hc (iha h.1) (ihb h.2.2)
  | case2 n c rest hs ih =>
    obtain ⟨hc, h⟩ := List.forall_mem_cons.mp h
    exact isSound_ifThen hc (ih h)
  | case3 n c rest ih =>
    obtain ⟨hc, h⟩ := List.forall_mem_cons.mp h
    exact isSound_while hc (ih h)
  | case4 n s rest => exact (List.forall_mem_cons.mp h).1
  | case5 => exact isSound_empty

end Chain

namespace Nonterminal

/-- What is asked of the values of a nonterminal. -/
def IsSoundValue : (n : Nonterminal) → n.Value → Prop
  | many n => fun vs => ∀ v ∈ vs, n.IsSoundValue v
  | opt n => fun v => ∀ x ∈ v, n.IsSoundValue x
  | after _ n => n.IsSoundValue
  | method => fun m => IsWellFormed m.toJson
  | variableModifier => Modifier.IsOfVariable
  | methodBody => fun b => ∀ x ∈ b, IsSound x.toJson
  | formalParameters => fun ps => ∀ p ∈ ps, IsSound p.toJson
  | formalParameter => fun p => IsSound p.toJson
  | block => fun b => IsSound b.toJson
  | blockStatement | declaration => fun s => IsSound s.toJson
  | declarator => fun d => IsSound d.toJson
  | chain _ | chainEnd _ => fun links => ∀ l ∈ links, Chain.IsSoundLink l
  | simpleStatement => fun s => IsSound s.toJson
  | tryTail => fun k => ∀ b, IsSound b.toJson → IsSound (k b).toJson
  | catchClause => fun c => IsSound c.toJson
  | catchTypes => fun types => types ≠ []
  | expression | conditional | joined _ | operand _ | unary | unsigned | signed | negationOrCast
  | primary | atom => fun e => IsSound e.toJson
  | operandTail | operatorTail | conditionalTail | operators _ | selections =>
    fun k => ∀ e, IsSound e.toJson → IsSound (k e).toJson
  | placeTail => fun k => ∀ p, IsSound p.toJson → IsSound (k p).toJson
  | literal => fun l => IsSound l.toJson
  | arguments => fun es => ∀ e ∈ es, IsSound e.toJson
  | _ => fun _ => True

/-- The alternatives make sound values of sound values. -/
def KeepsSound (n : Nonterminal) : Prop :=
  ∀ a ∈ n.alternatives, Keeps IsTextOf IsSoundValue (IsSoundValue n) a.symbols a.build

theorem keepsSound_repetition {n : Nonterminal} : KeepsSound (many n) ∧ KeepsSound (opt n) := by
  simp only [KeepsSound, alternatives, List.forall_mem_cons]
  exact ⟨⟨fun v hv vs hvs => List.forall_mem_cons.mpr ⟨hv, hvs⟩, List.forall_mem_nil _,
    List.forall_mem_nil _⟩, fun v hv x hx => Option.mem_some.mp hx ▸ hv, fun _ hx => (by cases hx),
    List.forall_mem_nil _⟩

theorem keepsSound_expression : KeepsSound expression := by
  simp only [KeepsSound, alternatives, expressionAlternatives, List.forall_mem_cons]
  exact ⟨fun x _ k hk => hk _ (isSound_named x),
    fun x _ args hargs k hk => hk _ (isSound_call x hargs),
    fun e he k hk => hk e he, fun e he k hk => hk e he, fun e he k hk => hk e he,
    List.forall_mem_nil _⟩

theorem keepsSound_tails :
    KeepsSound operandTail ∧ KeepsSound placeTail ∧ KeepsSound operatorTail ∧
      KeepsSound conditionalTail := by
  simp only [KeepsSound, alternatives, operandTailAlternatives, placeTailAlternatives,
    operatorTailAlternatives, conditionalTailAlternatives, List.forall_mem_cons]
  refine ⟨⟨?_, ?_, ?_, ?_, List.forall_mem_nil _⟩, ⟨?_, ?_, List.forall_mem_nil _⟩,
    ⟨?_, List.forall_mem_nil _⟩, ?_, ?_, List.forall_mem_nil _⟩
  · exact fun x _ k hk e he => hk _ (isSound_field he x)
  · exact fun x _ args hargs k hk e he => hk _ (isSound_invoke he x hargs)
  · exact fun i hi k hk e he => hk _ (isSound_element he hi)
  · exact fun k hk => hk
  · exact fun e he p hp => isSound_assign hp he
  · exact fun k hk p hp => hk _ hp
  · exact fun _ h₁ _ h₂ _ h₃ _ h₄ _ h₅ _ h₆ _ h₇ e he =>
      h₇ _ (h₆ _ (h₅ _ (h₄ _ (h₃ _ (h₂ _ (h₁ e he))))))
  · exact fun t ht e he c hc => isSound_conditional hc ht he
  · exact fun e he => he

theorem keepsSound_conditional : KeepsSound conditional := by
  simp only [KeepsSound, alternatives, conditionalAlternatives, List.forall_mem_singleton]
  exact fun e he k hk => hk e he

theorem keepsSound_joined (p : Precedence) : KeepsSound (joined p) := by
  simp only [KeepsSound, alternatives, joinedAlternatives, List.forall_mem_singleton]
  exact fun e he k hk => hk e he

theorem keepsSound_operators (p : Precedence) : KeepsSound (operators p) := by
  simp only [KeepsSound, alternatives, operatorsAlternatives, List.forall_mem_append,
    List.forall_mem_map, List.forall_mem_singleton]
  refine ⟨⟨fun op _ right hr k hk left hl => hk _ (isSound_binary op hl hr), ?_⟩, fun e he => he⟩
  split
  · exact List.forall_mem_singleton.mpr fun t _ k hk e he => hk _ (isSound_instanceOf he t)
  · exact List.forall_mem_nil _

theorem keepsSound_operand (p : Precedence) : KeepsSound (operand p) := by
  cases p <;> exact List.forall_mem_singleton.mpr fun e he => he

theorem keepsSound_unary : KeepsSound unary ∧ KeepsSound unsigned := by
  simp only [KeepsSound, alternatives, List.forall_mem_cons]
  exact ⟨⟨fun e he => he, fun e he => he, List.forall_mem_nil _⟩, fun e he => he, fun e he => he,
    List.forall_mem_nil _⟩

theorem keepsSound_signed : KeepsSound signed ∧ KeepsSound negationOrCast := by
  simp only [KeepsSound, alternatives, signedAlternatives, negationOrCastAlternatives,
    List.forall_mem_cons]
  exact ⟨⟨fun e he => isSound_unary _ he, fun e he => isSound_unary _ he, List.forall_mem_nil _⟩,
    fun e he => isSound_unary _ he, fun p _ n _ e he => isSound_cast _ he,
    fun c _ n _ e he => isSound_cast _ he, List.forall_mem_nil _⟩

theorem keepsSound_primary : KeepsSound primary ∧ KeepsSound selections := by
  simp only [KeepsSound, alternatives, primaryAlternatives, selectionsAlternatives,
    List.forall_mem_cons]
  refine ⟨⟨?_, ?_, ?_, List.forall_mem_nil _⟩, ?_, ?_, ?_, ?_, List.forall_mem_nil _⟩
  · exact fun x _ k hk => hk _ (isSound_named x)
  · exact fun x _ args hargs k hk => hk _ (isSound_call x hargs)
  · exact fun e he k hk => hk e he
  · exact fun x _ k hk e he => hk _ (isSound_field he x)
  · exact fun x _ args hargs k hk e he => hk _ (isSound_invoke he x hargs)
  · exact fun i hi k hk e he => hk _ (isSound_element he hi)
  · exact fun e he => he

theorem keepsSound_atom : KeepsSound atom := by
  simp only [KeepsSound, alternatives, atomAlternatives, List.forall_mem_cons]
  exact ⟨fun l hl => hl, fun t _ => isSound_classLiteral t, isSound_this, fun e he => he,
    fun c _ args hargs => isSound_new c hargs, List.forall_mem_nil _⟩

/-- Each class of literals has the kind that its texts show. -/
theorem keepsSound_literal : KeepsSound literal := by
  simp only [KeepsSound, alternatives, literalAlternatives, List.forall_mem_cons]
  have hword : ∀ {k : Keyword} {kind : LiteralKind}, LiteralKind.ofText k.text = kind →
      ∀ x, IsTextOf (.keyword k) x → IsSound (Literal.toJson ⟨kind, x⟩) := by
    rintro k kind rfl x rfl
    exact Literal.isSound_toJson rfl
  exact ⟨fun x hx => Literal.isSound_toJson (ofText_integer hx).symm,
    fun x hx => Literal.isSound_toJson (ofText_floating hx).symm,
    hword (by decide), hword (by decide),
    fun x hx => Literal.isSound_toJson (ofText_character hx).symm,
    fun x hx => Literal.isSound_toJson (ofText_string hx).symm,
    hword (by decide), List.forall_mem_nil _⟩

theorem keepsSound_arguments : KeepsSound arguments := by
  simp only [KeepsSound, alternatives, argumentsAlternatives, List.forall_mem_cons]
  exact ⟨List.forall_mem_nil _, fun e he es hes => List.forall_mem_cons.mpr ⟨he, hes⟩,
    List.forall_mem_nil _⟩

theorem keepsSound_block : KeepsSound block := by
  simp only [KeepsSound, alternatives, List.forall_mem_singleton]
  exact fun ss hss => isSound_block hss

theorem keepsSound_blockStatement : KeepsSound blockStatement ∧ KeepsSound declaration := by
  simp only [KeepsSound, alternatives, blockStatementAlternatives, declarationAlternatives,
    List.forall_mem_cons]
  exact ⟨⟨fun d hd => hd, fun links hl => Chain.isSound_statementOfSize hl, List.forall_mem_nil _⟩,
    fun modifiers hm t _ d hd ds hds => isSound_declaration hm
      (List.forall_mem_cons.mpr ⟨hd, hds⟩) (List.cons_ne_nil d ds), List.forall_mem_nil _⟩

theorem keepsSound_declarator : KeepsSound declarator := by
  simp only [KeepsSound, alternatives, declaratorAlternatives, List.forall_mem_singleton]
  exact fun x _ n _ e he => Declarator.isSound_toJson ⟨x, n, e⟩ he

theorem keepsSound_chain (k : Nat) : KeepsSound (chain k) ∧ KeepsSound (chainEnd k) := by
  constructor
  · simp only [KeepsSound, alternatives, chainAlternatives, List.forall_mem_cons]
    exact ⟨fun s hs links hl => List.forall_mem_cons.mpr ⟨hs, hl⟩,
      fun c hc links hl => List.forall_mem_cons.mpr ⟨hc, hl⟩,
      fun c hc links hl => List.forall_mem_cons.mpr ⟨hc, hl⟩, List.forall_mem_nil _⟩
  · cases k with
    | zero => exact List.forall_mem_singleton.mpr (List.forall_mem_nil _)
    | succ k =>
      simp only [KeepsSound, alternatives, chainEndAlternatives, List.forall_mem_cons]
      exact ⟨fun links hl => List.forall_mem_cons.mpr ⟨trivial, hl⟩, List.forall_mem_nil _,
        List.forall_mem_nil _⟩

theorem keepsSound_simpleStatement : KeepsSound simpleStatement := by
  simp only [KeepsSound, alternatives, simpleStatementAlternatives, List.forall_mem_cons]
  exact ⟨fun b hb => hb, fun b hb k hk => hk b hb, fun e he => isSound_return he,
    fun e he => isSound_throw he, fun e he => isSound_expression he, isSound_empty,
    List.forall_mem_nil _⟩

theorem keepsSound_tryTail : KeepsSound tryTail ∧ KeepsSound catchClause := by
  simp only [KeepsSound, alternatives, tryTailAlternatives, catchClauseAlternatives,
    List.forall_mem_cons]
  refine ⟨⟨fun c hc cs hcs final hf b hb => ?_, fun f hf b hb => ?_, List.forall_mem_nil _⟩,
    fun modifiers hm types ht x _ b hb => isSound_catch hm ht hb, List.forall_mem_nil _⟩
  · exact isSound_try hb (List.forall_mem_cons.mpr ⟨hc, hcs⟩) hf (.inl (List.cons_ne_nil c cs))
  · exact isSound_try hb (List.forall_mem_nil _) (fun x hx => Option.mem_some.mp hx ▸ hf) (.inr rfl)

theorem keepsSound_variableModifier : KeepsSound variableModifier := by
  simp only [KeepsSound, alternatives, List.forall_mem_cons]
  exact ⟨rfl, fun x _ => trivial, List.forall_mem_nil _⟩

theorem keepsSound_catchTypes : KeepsSound catchTypes := by
  simp only [KeepsSound, alternatives, List.forall_mem_singleton]
  exact fun c _ cs _ => List.cons_ne_nil c cs

theorem keepsSound_formalParameters : KeepsSound formalParameters ∧ KeepsSound formalParameter := by
  simp only [KeepsSound, alternatives, formalParametersAlternatives, formalParameterAlternatives,
    List.forall_mem_cons]
  exact ⟨⟨List.forall_mem_nil _, fun p hp ps hps => List.forall_mem_cons.mpr ⟨hp, hps⟩,
    List.forall_mem_nil _⟩,
    fun modifiers hm t _ v _ x _ => FormalParameter.isSound_toJson ⟨modifiers, t, v, x⟩ hm,
    List.forall_mem_nil _⟩

theorem ne_nil_of_isIdentifier {x : Text} (h : IsIdentifier x) : x ≠ [] := by
  rintro rfl
  cases h

theorem keepsSound_method : KeepsSound method := by
  simp only [KeepsSound, alternatives, methodAlternatives, List.forall_mem_singleton]
  exact fun modifiers _ types _ result _ x hx ps hps throws _ body hb =>
    MethodDeclaration.isWellFormed_toJson
      ⟨modifiers, types.getD [], result, x, ps, throws.getD [], body, none⟩
      (ne_nil_of_isIdentifier hx) rfl hps hb

theorem keepsSound_methodBody : KeepsSound methodBody := by
  simp only [KeepsSound, alternatives, List.forall_mem_cons]
  exact ⟨fun b hb x hx => Option.mem_some.mp hx ▸ hb, fun _ hx => (by cases hx),
    List.forall_mem_nil _⟩

theorem keeps_true {A : Type} {Q : A → Prop} (hQ : ∀ a, Q a)
    (ss : List (Symbol Terminal Nonterminal)) (b : Builder Value ss A) :
    Keeps IsTextOf IsSoundValue Q ss b := by
  induction ss with
  | nil => exact hQ b
  | cons s ss ih =>
    cases s with
    | skip t => exact ih b
    | take t => exact fun x _ => ih (b x)
    | node n => exact fun v _ => ih (b v)

theorem keepsSound (n : Nonterminal) : KeepsSound n := by
  cases n with
  | many n => exact keepsSound_repetition.1
  | opt n => exact keepsSound_repetition.2
  | after t n => exact List.forall_mem_singleton.mpr fun v hv => hv
  | method => exact keepsSound_method
  | variableModifier => exact keepsSound_variableModifier
  | methodBody => exact keepsSound_methodBody
  | formalParameters => exact keepsSound_formalParameters.1
  | formalParameter => exact keepsSound_formalParameters.2
  | block => exact keepsSound_block
  | blockStatement => exact keepsSound_blockStatement.1
  | declaration => exact keepsSound_blockStatement.2
  | declarator => exact keepsSound_declarator
  | chain k => exact (keepsSound_chain k).1
  | chainEnd k => exact (keepsSound_chain k).2
  | simpleStatement => exact keepsSound_simpleStatement
  | tryTail => exact keepsSound_tryTail.1
  | catchClause => exact keepsSound_tryTail.2
  | catchTypes => exact keepsSound_catchTypes
  | expression => exact keepsSound_expression
  | operandTail => exact keepsSound_tails.1
  | placeTail => exact keepsSound_tails.2.1
  | operatorTail => exact keepsSound_tails.2.2.1
  | conditionalTail => exact keepsSound_tails.2.2.2
  | conditional => exact keepsSound_conditional
  | joined p => exact keepsSound_joined p
  | operators p => exact keepsSound_operators p
  | operand p => exact keepsSound_operand p
  | unary => exact keepsSound_unary.1
  | unsigned => exact keepsSound_unary.2
  | signed => exact keepsSound_signed.1
  | negationOrCast => exact keepsSound_signed.2
  | primary => exact keepsSound_primary.1
  | selections => exact keepsSound_primary.2
  | atom => exact keepsSound_atom
  | literal => exact keepsSound_literal
  | arguments => exact keepsSound_arguments
  | _ => exact fun a _ => keeps_true (fun _ => trivial) a.symbols a.build

end Nonterminal

/-- The method that a text declares is well-formed at every node. -/
theorem isWellFormed_of_parse {source : Text} {m : MethodDeclaration} (h : parse source = .ok m) :
    IsWellFormed m.toJson := by
  obtain ⟨tokens, hs, hd⟩ := derives_of_parse h
  have hreadable : ∀ l ∈ tokens.map (·.toLexeme), IsTextOf l.terminal l.text := by
    rw [List.forall_mem_map]
    exact fun token hm => (hs.readable token hm).isTextOf
  exact Grammar.Derives.kept (G := grammar.toGrammar) (P := Nonterminal.IsSoundValue)
    Nonterminal.keepsSound hd hreadable

/-- A method with most kinds of nodes in it. -/
def sampleMethod : Text :=
  "<T extends A & B> void f(final int[] a, M<?, ? super T>... b) throws E \x7b int x[] = 0x1F, y; " ++
  "try \x7b a[0] = void.class == null ? 1e5f : 0L; \x7d catch (final E | F e) " ++
  "\x7b throw new G<T[]>('c', \"d\"); \x7d if (x) while (y) ; else return; \x7d"

theorem isWellFormed_of_parse_sample :
    ∃ m, parse sampleMethod = .ok m ∧ IsWellFormed m.toJson := by
  obtain ⟨m, h⟩ := exists_ok_of_isSome (x := parse sampleMethod) (by decide +kernel)
  exact ⟨m, h, isWellFormed_of_parse h⟩

end MemberAccess.Java
