import MemberAccess.Proofs.Grammar.Related
import MemberAccess.Proofs.Java.Ast.Blank
import MemberAccess.Proofs.Java.Unambiguous

/-!
# Methods that differ in string literals

If two sequences of lexemes differ only in what their string literals say, then so do the methods
that they are.
-/

namespace MemberAccess.Java

/-- The texts of a terminal are equal unless it is a string. -/
def SameText (t : Terminal) (x x' : Text) : Prop := t ≠ .string → x = x'

namespace Nonterminal

/-- No value of the nonterminal holds a string literal. -/
def isExact : Nonterminal → Bool
  | many n | opt n | after _ n => n.isExact
  | method | methodBody | block | blockStatement | declaration | declarator | chain _ | chainEnd _
  | simpleStatement | tryTail | catchClause | expression | conditional | joined _ | operand _
  | unary | unsigned | signed | negationOrCast | primary | atom | operandTail | operatorTail
  | conditionalTail | operators _ | selections | placeTail | literal | arguments => false
  | _ => true

/-- The values are equal but for the texts of string literals. -/
def Alike : (n : Nonterminal) → n.Value → n.Value → Prop
  | many n => List.Forall₂ n.Alike
  | opt n => Option.Rel n.Alike
  | after _ n => n.Alike
  | method => fun m m' => m.blank = m'.blank
  | methodBody => fun b b' => b.map Block.blank = b'.map Block.blank
  | block => fun b b' => b.blank = b'.blank
  | blockStatement | declaration => fun s s' => s.blank = s'.blank
  | declarator => fun d d' => d.blank = d'.blank
  | chain _ | chainEnd _ => fun links links' => links.map Link.blank = links'.map Link.blank
  | simpleStatement => fun s s' => s.blank = s'.blank
  | tryTail => fun k k' => ∀ b b', b.blank = b'.blank → (k b).blank = (k' b').blank
  | catchClause => fun c c' => c.blank = c'.blank
  | expression | conditional | joined _ | operand _ | unary | unsigned | signed | negationOrCast
  | primary | atom => fun e e' => e.blank = e'.blank
  | operandTail | operatorTail | conditionalTail | operators _ | selections =>
    fun k k' => ∀ e e', e.blank = e'.blank → (k e).blank = (k' e').blank
  | placeTail => fun k k' => ∀ p p', p.blank = p'.blank → (k p).blank = (k' p').blank
  | literal => fun l l' => l.blank = l'.blank
  | arguments => fun es es' => es.map Expr.blank = es'.map Expr.blank
  | flag _ | modifier | marker | name | simpleName | result | throwsClause | formalParameters
  | formalParameter | variableModifier | type | primitive | dimensions | classType | classTypePart
  | typeArguments | typeArgument | typeParameters | typeParameter | bounds | catchTypes => Eq

theorem Alike.eq {n : Nonterminal} (hn : n.isExact) {v v' : n.Value} (h : n.Alike v v') : v = v' := by
  induction n with
  | many n ih =>
    have h : List.Forall₂ Eq v v' := List.Forall₂.imp (fun _ _ hv => ih hn hv) h
    rwa [List.forall₂_eq_eq_eq] at h
  | opt n ih =>
    cases h with
    | none => rfl
    | some hv => rw [ih hn hv]
  | after t n ih => exact ih hn h
  | method | methodBody | block | blockStatement | declaration | declarator | chain | chainEnd
  | simpleStatement | tryTail | catchClause | expression | conditional | joined | operand
  | unary | unsigned | signed | negationOrCast | primary | atom | operandTail | operatorTail
  | conditionalTail | operators | selections | placeTail | literal | arguments => cases hn
  | _ => exact h

/-- The alternatives make alike values of alike values. -/
def KeepsAlike (n : Nonterminal) : Prop :=
  ∀ a ∈ n.alternatives, Relates SameText Alike (Alike n) a.symbols a.build a.build

def isExactSymbol : Symbol Terminal Nonterminal → Bool
  | .skip _ => true
  | .take t => t ≠ .string
  | .node n => n.isExact

theorem relates_of_isExact {A : Type} {Q : A → A → Prop} (hQ : ∀ a, Q a a)
    {ss : List (Symbol Terminal Nonterminal)} (h : ss.all isExactSymbol) (b : Builder Value ss A) :
    Relates SameText Alike Q ss b b := by
  induction ss with
  | nil => exact hQ b
  | cons s ss ih =>
    rw [List.all_cons, Bool.and_eq_true] at h
    cases s with
    | skip t => exact ih h.2 b
    | take t =>
      intro x x' hx
      obtain rfl := hx (of_decide_eq_true h.1)
      exact ih h.2 (b x)
    | node n =>
      intro v v' hv
      obtain rfl := hv.eq h.1
      exact ih h.2 (b v)

theorem keepsAlike_of_isExact {n : Nonterminal} (hrefl : ∀ v, n.Alike v v)
    (h : ∀ a ∈ n.alternatives, a.symbols.all isExactSymbol) : KeepsAlike n :=
  fun a ha => relates_of_isExact hrefl (h a ha) a.build

theorem keepsAlike_repetition {n : Nonterminal} : KeepsAlike (many n) ∧ KeepsAlike (opt n) := by
  simp only [KeepsAlike, alternatives, List.forall_mem_cons]
  exact ⟨⟨fun v v' hv vs vs' hvs => .cons hv hvs, .nil, List.forall_mem_nil _⟩,
    fun v v' hv => .some hv, .none, List.forall_mem_nil _⟩

theorem map_eq_of_forall₂ {A B : Type} {f : A → B} {as as' : List A}
    (h : List.Forall₂ (fun a a' => f a = f a') as as') : as.map f = as'.map f := by
  induction h with
  | nil => rfl
  | cons ha _ ih => rw [List.map_cons, List.map_cons, ha, ih]

theorem map_eq_of_rel {A B : Type} {f : A → B} {a a' : Option A}
    (h : Option.Rel (fun a a' => f a = f a') a a') : a.map f = a'.map f := by
  cases h with
  | none => rfl
  | some h => rw [Option.map_some, Option.map_some, h]

theorem keepsAlike_expression : KeepsAlike expression := by
  simp only [KeepsAlike, alternatives, expressionAlternatives, List.forall_mem_cons]
  refine ⟨?_, ?_, fun e e' he k k' hk => hk e e' he, fun e e' he k k' hk => hk e e' he,
    fun e e' he k k' hk => hk e e' he, List.forall_mem_nil _⟩
  · intro x x' hx k k' hk
    obtain rfl := hx (by decide)
    exact hk _ _ rfl
  · intro x x' hx args args' hargs k k' hk
    obtain rfl := hx (by decide)
    exact hk _ _ (congrArg (Expr.call x) (blankExprs_congr hargs))

theorem keepsAlike_operandTail : KeepsAlike operandTail := by
  simp only [KeepsAlike, alternatives, operandTailAlternatives, List.forall_mem_cons]
  refine ⟨?_, ?_, ?_, fun k k' hk => hk, List.forall_mem_nil _⟩
  · intro x x' hx k k' hk e e' he
    obtain rfl := hx (by decide)
    exact hk _ _ (by rw [Place.blank, Place.blank, he])
  · intro x x' hx args args' hargs k k' hk e e' he
    obtain rfl := hx (by decide)
    exact hk _ _ (congrArg₂ (Expr.invoke · x ·) he (blankExprs_congr hargs))
  · intro i i' hi k k' hk e e' he
    exact hk _ _ (by rw [Place.blank, Place.blank, he, hi])

theorem keepsAlike_placeTail : KeepsAlike placeTail := by
  simp only [KeepsAlike, alternatives, placeTailAlternatives, List.forall_mem_cons]
  refine ⟨fun e e' he p p' hp => ?_, fun k k' hk p p' hp => hk _ _ ?_, List.forall_mem_nil _⟩
  · rw [Expr.blank, Expr.blank, hp, he]
  · rw [Expr.blank, Expr.blank, hp]

theorem keepsAlike_operatorTail : KeepsAlike operatorTail ∧ KeepsAlike conditionalTail := by
  simp only [KeepsAlike, alternatives, operatorTailAlternatives, conditionalTailAlternatives,
    List.forall_mem_cons]
  refine ⟨⟨?_, List.forall_mem_nil _⟩, ?_, fun e e' he => he, List.forall_mem_nil _⟩
  · exact fun _ _ h₁ _ _ h₂ _ _ h₃ _ _ h₄ _ _ h₅ _ _ h₆ _ _ h₇ e e' he =>
      h₇ _ _ (h₆ _ _ (h₅ _ _ (h₄ _ _ (h₃ _ _ (h₂ _ _ (h₁ e e' he))))))
  · intro t t' ht e e' he c c' hc
    rw [Expr.blank, Expr.blank, ht, he, hc]

theorem keepsAlike_conditional : KeepsAlike conditional := by
  simp only [KeepsAlike, alternatives, conditionalAlternatives, List.forall_mem_singleton]
  exact fun e e' he k k' hk => hk e e' he

theorem keepsAlike_joined (p : Precedence) : KeepsAlike (joined p) := by
  simp only [KeepsAlike, alternatives, joinedAlternatives, List.forall_mem_singleton]
  exact fun e e' he k k' hk => hk e e' he

theorem keepsAlike_operators (p : Precedence) : KeepsAlike (operators p) := by
  simp only [KeepsAlike, alternatives, operatorsAlternatives, List.forall_mem_append,
    List.forall_mem_map, List.forall_mem_singleton]
  refine ⟨⟨fun op _ right right' hr k k' hk left left' hl => hk _ _ ?_, ?_⟩, fun e e' he => he⟩
  · rw [Expr.blank, Expr.blank, hl, hr]
  · split
    · refine List.forall_mem_singleton.mpr fun t t' ht k k' hk e e' he => hk _ _ ?_
      obtain rfl : t = t' := ht
      rw [Expr.blank, Expr.blank, he]
    · exact List.forall_mem_nil _

theorem keepsAlike_operand (p : Precedence) : KeepsAlike (operand p) := by
  cases p <;> exact List.forall_mem_singleton.mpr fun e e' he => he

theorem keepsAlike_unary : KeepsAlike unary ∧ KeepsAlike unsigned := by
  simp only [KeepsAlike, alternatives, List.forall_mem_cons]
  exact ⟨⟨fun e e' he => he, fun e e' he => he, List.forall_mem_nil _⟩, fun e e' he => he,
    fun e e' he => he, List.forall_mem_nil _⟩

theorem keepsAlike_signed : KeepsAlike signed ∧ KeepsAlike negationOrCast := by
  have hunary : ∀ op, ∀ e e' : Expr, e.blank = e'.blank →
      (Expr.unary op e).blank = (Expr.unary op e').blank := fun op e e' he => by
    rw [Expr.blank, Expr.blank, he]
  have hcast : ∀ t, ∀ e e' : Expr, e.blank = e'.blank →
      (Expr.cast t e).blank = (Expr.cast t e').blank := fun t e e' he => by
    rw [Expr.blank, Expr.blank, he]
  simp only [KeepsAlike, alternatives, signedAlternatives, negationOrCastAlternatives,
    List.forall_mem_cons]
  refine ⟨⟨hunary _, hunary _, List.forall_mem_nil _⟩, hunary _, ?_, ?_, List.forall_mem_nil _⟩
  · rintro p _ rfl n _ rfl
    exact hcast _
  · rintro c _ rfl n _ rfl
    exact hcast _

theorem keepsAlike_primary : KeepsAlike primary := by
  simp only [KeepsAlike, alternatives, primaryAlternatives, List.forall_mem_cons]
  refine ⟨?_, ?_, fun e e' he k k' hk => hk e e' he, List.forall_mem_nil _⟩
  · intro x x' hx k k' hk
    obtain rfl := hx (by decide)
    exact hk _ _ rfl
  · intro x x' hx args args' hargs k k' hk
    obtain rfl := hx (by decide)
    exact hk _ _ (congrArg (Expr.call x) (blankExprs_congr hargs))

theorem keepsAlike_selections : KeepsAlike selections := by
  simp only [KeepsAlike, alternatives, selectionsAlternatives, List.forall_mem_cons]
  refine ⟨?_, ?_, ?_, fun e e' he => he, List.forall_mem_nil _⟩
  · intro x x' hx k k' hk e e' he
    obtain rfl := hx (by decide)
    exact hk _ _ (by rw [Expr.blank, Expr.blank, Place.blank, Place.blank, he])
  · intro x x' hx args args' hargs k k' hk e e' he
    obtain rfl := hx (by decide)
    exact hk _ _ (congrArg₂ (Expr.invoke · x ·) he (blankExprs_congr hargs))
  · intro i i' hi k k' hk e e' he
    exact hk _ _ (by rw [Expr.blank, Expr.blank, Place.blank, Place.blank, he, hi])

theorem keepsAlike_atom : KeepsAlike atom := by
  simp only [KeepsAlike, alternatives, atomAlternatives, List.forall_mem_cons]
  refine ⟨fun l l' hl => congrArg Expr.literal hl, ?_, rfl, fun e e' he => he, ?_,
    List.forall_mem_nil _⟩
  · rintro t _ rfl
    rfl
  · rintro c _ rfl args args' hargs
    exact congrArg (Expr.new c) (blankExprs_congr hargs)

/-- Only the texts of strings are not compared. -/
theorem keepsAlike_literal : KeepsAlike literal := by
  simp only [KeepsAlike, alternatives, literalAlternatives, List.forall_mem_cons]
  have hsame : ∀ {t : Terminal}, t ≠ .string → ∀ f : Text → Literal, ∀ x x', SameText t x x' →
      (f x).blank = (f x').blank := by
    intro t ht f x x' hx
    rw [hx ht]
  exact ⟨hsame (by decide) _, hsame (by decide) _, hsame (by decide) _, hsame (by decide) _,
    hsame (by decide) _, fun x x' _ => rfl, hsame (by decide) _, List.forall_mem_nil _⟩

theorem keepsAlike_arguments : KeepsAlike arguments := by
  simp only [KeepsAlike, alternatives, argumentsAlternatives, List.forall_mem_cons]
  exact ⟨rfl, fun e e' he es es' hes => congrArg₂ List.cons he (map_eq_of_forall₂ hes),
    List.forall_mem_nil _⟩

theorem keepsAlike_block : KeepsAlike block := by
  simp only [KeepsAlike, alternatives, List.forall_mem_singleton]
  exact fun ss ss' hss => congrArg Block.mk (blankStatements_congr (map_eq_of_forall₂ hss))

theorem keepsAlike_blockStatement : KeepsAlike blockStatement := by
  simp only [KeepsAlike, alternatives, blockStatementAlternatives, List.forall_mem_cons]
  refine ⟨fun d d' hd => hd, fun links links' hl => ?_, List.forall_mem_nil _⟩
  have hlinks : links.map Link.blank = links'.map Link.blank := hl
  have hstatement : (Chain.statement links).blank = (Chain.statement links').blank := by
    rw [← Chain.statement_blank, hlinks, Chain.statement_blank]
  exact congrArg BlockStatement.statement hstatement

theorem keepsAlike_declaration : KeepsAlike declaration := by
  simp only [KeepsAlike, alternatives, declarationAlternatives, List.forall_mem_singleton]
  intro modifiers modifiers' hm t t' ht d d' hd ds ds' hds
  obtain rfl := Alike.eq (n := many variableModifier) rfl hm
  obtain rfl : t = t' := ht
  exact congrArg (BlockStatement.declaration modifiers t)
    (congrArg₂ List.cons hd (map_eq_of_forall₂ hds))

theorem keepsAlike_declarator : KeepsAlike declarator := by
  simp only [KeepsAlike, alternatives, declaratorAlternatives, List.forall_mem_singleton]
  intro x x' hx n n' hn e e' he
  obtain rfl := hx (by decide)
  obtain rfl : n = n' := hn
  exact congrArg (Declarator.mk x n) (map_eq_of_rel he)

theorem keepsAlike_chain (k : Nat) : KeepsAlike (chain k) ∧ KeepsAlike (chainEnd k) := by
  have hcons : ∀ {l l' : Link} {links links' : Chain}, l.blank = l'.blank →
      links.map Link.blank = links'.map Link.blank →
      (l :: links).map Link.blank = (l' :: links').map Link.blank := by
    intro l l' links links' hl h
    rw [List.map_cons, List.map_cons, hl, h]
  constructor
  · simp only [KeepsAlike, alternatives, chainAlternatives, List.forall_mem_cons]
    exact ⟨fun s s' hs links links' hl => hcons (congrArg Link.simple hs) hl,
      fun c c' hc links links' hl => hcons (congrArg Link.ifHead hc) hl,
      fun c c' hc links links' hl => hcons (congrArg Link.whileHead hc) hl, List.forall_mem_nil _⟩
  · cases k with
    | zero => exact List.forall_mem_singleton.mpr rfl
    | succ k =>
      simp only [KeepsAlike, alternatives, chainEndAlternatives, List.forall_mem_cons]
      exact ⟨fun links links' hl => hcons rfl hl, rfl, List.forall_mem_nil _⟩

theorem keepsAlike_simpleStatement : KeepsAlike simpleStatement := by
  simp only [KeepsAlike, alternatives, simpleStatementAlternatives, List.forall_mem_cons]
  refine ⟨fun b b' hb => ?_, fun b b' hb k k' hk => hk b b' hb, fun e e' he => ?_,
    fun e e' he => ?_, fun e e' he => ?_, rfl, List.forall_mem_nil _⟩
  · exact congrArg Statement.block hb
  · exact congrArg Statement.return_ (map_eq_of_rel he)
  · exact congrArg Statement.throw_ he
  · exact congrArg Statement.expression he

theorem keepsAlike_tryTail : KeepsAlike tryTail := by
  simp only [KeepsAlike, alternatives, tryTailAlternatives, List.forall_mem_cons]
  refine ⟨fun c c' hc cs cs' hcs f f' hf b b' hb => ?_, fun f f' hf b b' hb => ?_,
    List.forall_mem_nil _⟩
  · rw [Statement.blank_try, Statement.blank_try, hb, map_eq_of_rel hf, List.map_cons,
      List.map_cons, show c.blank = c'.blank from hc, map_eq_of_forall₂ hcs]
  · rw [Statement.blank_try, Statement.blank_try, hb, Option.map_some, Option.map_some,
      show f.blank = f'.blank from hf]

theorem keepsAlike_catchClause : KeepsAlike catchClause := by
  simp only [KeepsAlike, alternatives, catchClauseAlternatives, List.forall_mem_singleton]
  intro modifiers modifiers' hm types types' ht x x' hx b b' hb
  obtain rfl := Alike.eq (n := many variableModifier) rfl hm
  obtain rfl : types = types' := ht
  obtain rfl := hx (by decide)
  exact congrArg (CatchClause.mk modifiers types x) hb

theorem keepsAlike_methodBody : KeepsAlike methodBody := by
  simp only [KeepsAlike, alternatives, List.forall_mem_cons]
  exact ⟨fun b b' hb => congrArg some hb, rfl, List.forall_mem_nil _⟩

theorem keepsAlike_method : KeepsAlike method := by
  simp only [KeepsAlike, alternatives, methodAlternatives, List.forall_mem_singleton]
  intro modifiers modifiers' hm types types' ht result result' hr x x' hx ps ps' hps throws throws'
    hthrows b b' hb
  obtain rfl := Alike.eq (n := many modifier) rfl hm
  obtain rfl := Alike.eq (n := opt typeParameters) rfl ht
  obtain rfl : result = result' := hr
  obtain rfl := hx (by decide)
  obtain rfl : ps = ps' := hps
  obtain rfl := Alike.eq (n := opt throwsClause) rfl hthrows
  exact congrArg (MethodDeclaration.mk modifiers (types.getD []) result x ps (throws.getD []) · none)
    hb

theorem keepsAlike (n : Nonterminal) : KeepsAlike n := by
  cases n with
  | many n => exact keepsAlike_repetition.1
  | opt n => exact keepsAlike_repetition.2
  | after t n => exact List.forall_mem_singleton.mpr fun v v' hv => hv
  | method => exact keepsAlike_method
  | methodBody => exact keepsAlike_methodBody
  | block => exact keepsAlike_block
  | blockStatement => exact keepsAlike_blockStatement
  | declaration => exact keepsAlike_declaration
  | declarator => exact keepsAlike_declarator
  | chain k => exact (keepsAlike_chain k).1
  | chainEnd k => exact (keepsAlike_chain k).2
  | simpleStatement => exact keepsAlike_simpleStatement
  | tryTail => exact keepsAlike_tryTail
  | catchClause => exact keepsAlike_catchClause
  | expression => exact keepsAlike_expression
  | operandTail => exact keepsAlike_operandTail
  | placeTail => exact keepsAlike_placeTail
  | operatorTail => exact keepsAlike_operatorTail.1
  | conditionalTail => exact keepsAlike_operatorTail.2
  | conditional => exact keepsAlike_conditional
  | joined p => exact keepsAlike_joined p
  | operators p => exact keepsAlike_operators p
  | operand p => exact keepsAlike_operand p
  | unary => exact keepsAlike_unary.1
  | unsigned => exact keepsAlike_unary.2
  | signed => exact keepsAlike_signed.1
  | negationOrCast => exact keepsAlike_signed.2
  | primary => exact keepsAlike_primary
  | selections => exact keepsAlike_selections
  | atom => exact keepsAlike_atom
  | literal => exact keepsAlike_literal
  | arguments => exact keepsAlike_arguments
  | flag t => exact keepsAlike_of_isExact (fun _ => rfl) (by simp [alternatives, isExactSymbol])
  | _ => exact keepsAlike_of_isExact (fun _ => rfl) (by decide)

end Nonterminal

/-- Lexemes that differ only in string literals are methods that differ only in them. -/
theorem blank_eq_of_derives {w w' : List Lexeme} {m m' : MethodDeclaration}
    (h : Nonterminal.method.Derives w m) (h' : Nonterminal.method.Derives w' m')
    (hw : List.Forall₂ (SameLexeme SameText) w w') (ha : Nonterminal.AngleFree w) :
    m.blank = m'.blank := by
  obtain ⟨m'', hm, hblank⟩ :=
    Grammar.Derives.related (G := grammar.toGrammar) (R := Nonterminal.Alike)
      Nonterminal.keepsAlike h' hw
  obtain rfl := Nonterminal.method_unique h hm ha
  exact hblank

end MemberAccess.Java
