import MemberAccess.Proofs.Java.Ebnf.Completeness
import MemberAccess.Proofs.Java.Ebnf.Soundness
import MemberAccess.Proofs.Java.Phrase.Expression
import MemberAccess.Proofs.Java.Return

/-!
# Precedence climbing

Operands with binary operators between them can be joined to a tree in many ways. Precedence
climbing builds the one tree in which each left subtree binds at least as tightly as its parent and
each right subtree binds more tightly. The grammar, which has a nonterminal for each precedence,
reads the same tree.
-/

namespace MemberAccess.Java

/-- How tightly an operator binds. -/
def BinaryOp.strength : BinaryOp → Nat
  | or => 1
  | and => 2
  | equal | notEqual => 3
  | less | greater | lessEqual | greaterEqual => 4
  | add | subtract => 5
  | multiply | divide | remainder => 6

/-- Operands that are joined by binary operators. -/
inductive OpTree (A : Type) where
  | operand (a : A)
  | node (op : BinaryOp) (left right : OpTree A)

namespace OpTree

variable {A : Type}

def first : OpTree A → A
  | operand a => a
  | node _ l _ => l.first

/-- The operators from left to right, each with the operand after it. -/
def rest : OpTree A → List (BinaryOp × A)
  | operand _ => []
  | node op l r => l.rest ++ (op, r.first) :: r.rest

/-- The root is an operand or an operator of at least this strength. -/
def AtLeast (n : Nat) : OpTree A → Prop
  | operand _ => True
  | node op _ _ => n ≤ op.strength

/-- Each left subtree binds at least as tightly as its parent, and each right one more tightly. -/
def IsOrdered : OpTree A → Prop
  | operand _ => True
  | node op l r =>
    l.AtLeast op.strength ∧ r.AtLeast (op.strength + 1) ∧ l.IsOrdered ∧ r.IsOrdered

theorem AtLeast.mono {n k : Nat} {t : OpTree A} (h : t.AtLeast n) (hk : k ≤ n) : t.AtLeast k := by
  cases t with
  | operand a => trivial
  | node op l r => exact Nat.le_trans hk h

/-- Goes on after a tree with operators of at least a strength, and gives what is left, too. An
operand that stands before a stronger operator is climbed first. -/
def climbFrom (least : Nat) (left : OpTree A) (more : List (BinaryOp × A)) :
    { p : OpTree A × List (BinaryOp × A) // p.2.length ≤ more.length } :=
  match more with
  | [] => ⟨(left, []), Nat.le_refl _⟩
  | (op, a) :: more =>
    if op.strength < least then ⟨(left, (op, a) :: more), Nat.le_refl _⟩
    else
      let right := climbFrom (op.strength + 1) (operand a) more
      let whole := climbFrom least (node op left right.1.1) right.1.2
      ⟨whole.1, (whole.2.trans right.2).trans (Nat.le_succ _)⟩
termination_by more.length
decreasing_by
  · exact Nat.lt_succ_self _
  · exact Nat.lt_succ_of_le right.2

def climb (least : Nat) (left : OpTree A) (more : List (BinaryOp × A)) :
    OpTree A × List (BinaryOp × A) := (climbFrom least left more).1

/-- The tree of a first operand and the operators after it. -/
def climbed (first : A) (more : List (BinaryOp × A)) : OpTree A := (climb 0 (operand first) more).1

/-- The operators do not begin with one of this strength or more. -/
def Stops (least : Nat) (more : List (BinaryOp × A)) : Prop :=
  ∀ p ∈ more.head?, p.1.strength < least

/-- The tree binds at least as tightly as the operator that follows. -/
def Precedes (t : OpTree A) (more : List (BinaryOp × A)) : Prop :=
  ∀ p ∈ more.head?, t.AtLeast p.1.strength

variable {least : Nat} {left t : OpTree A} {more : List (BinaryOp × A)} {op : BinaryOp} {a : A}

theorem stops_nil : Stops least ([] : List (BinaryOp × A)) := fun _ hp => by cases hp

theorem climb_length (least : Nat) (left : OpTree A) (more : List (BinaryOp × A)) :
    (climb least left more).2.length ≤ more.length := (climbFrom least left more).2

theorem climb_of_stops (h : Stops least more) : climb least left more = (left, more) := by
  cases more with
  | nil => rw [climb, climbFrom]
  | cons p more => rw [climb, climbFrom, if_pos (h p rfl)]

theorem climb_cons (h : least ≤ op.strength) :
    climb least left ((op, a) :: more) =
      climb least (node op left (climb (op.strength + 1) (operand a) more).1)
        (climb (op.strength + 1) (operand a) more).2 := by
  rw [climb, climbFrom, if_neg (Nat.not_lt.mpr h)]
  rfl

/-- The tree keeps what it has been made of, in order, and is ordered; no operator is left that could
have been taken. -/
theorem climb_spec (ho : left.IsOrdered) (hl : left.AtLeast least) (hm : left.Precedes more) :
    (climb least left more).1.IsOrdered ∧ (climb least left more).1.AtLeast least ∧
      (climb least left more).1.first = left.first ∧
      (climb least left more).1.rest ++ (climb least left more).2 = left.rest ++ more ∧
      Stops least (climb least left more).2 := by
  induction hn : more.length using Nat.strongRecOn generalizing least left more with
  | _ n ih =>
    by_cases hs : Stops least more
    · rw [climb_of_stops hs]
      exact ⟨ho, hl, rfl, rfl, hs⟩
    · match more with
      | [] => exact absurd stops_nil hs
      | (op, a) :: more =>
        have hop : least ≤ op.strength := by
          refine Nat.not_lt.mp fun h => hs fun p hp => ?_
          cases hp
          exact h
        rw [List.length_cons] at hn
        have hlen := climb_length (op.strength + 1) (operand a) more
        -- the operand after `op` takes all stronger operators, and the loop goes on with the rest
        obtain ⟨ro, rl, rf, rr, rs⟩ := @ih more.length (by omega) (op.strength + 1) (operand a) more
          trivial trivial (fun _ _ => trivial) rfl
        rw [climb_cons hop]
        generalize climb (op.strength + 1) (operand a) more = right at hlen ro rl rf rr rs ⊢
        obtain ⟨wo, wl, wf, wr, ws⟩ := @ih right.2.length (by omega) least (node op left right.1)
          right.2 ⟨hm (op, a) rfl, rl, ho, ro⟩ hop (fun p hp => Nat.le_of_lt_succ (rs p hp)) rfl
        refine ⟨wo, wl, wf, ?_, ws⟩
        rw [wr, rest, List.append_assoc, List.cons_append, rr, rf]
        rfl

/-- Climbing over the operators of an ordered tree builds the tree. -/
theorem climb_rest (ho : t.IsOrdered) (hl : t.AtLeast least) (hm : t.Precedes more) :
    climb least (operand t.first) (t.rest ++ more) = climb least t more := by
  induction t generalizing least more with
  | operand a => rfl
  | node op l r ihl ihr =>
    obtain ⟨hlo, hro, hl', hr'⟩ := ho
    have hop : least ≤ op.strength := hl
    have hs : Stops (op.strength + 1) more := fun p hp => Nat.lt_succ_of_le (hm p hp)
    have hleft : l.Precedes ((op, r.first) :: (r.rest ++ more)) := by
      intro p hp
      cases hp
      exact hlo
    have hright : r.Precedes more := fun p hp =>
      hro.mono ((show p.1.strength ≤ op.strength from hm p hp).trans (Nat.le_succ _))
    rw [first, rest, List.append_assoc, List.cons_append, ihl hl' (hlo.mono hop) hleft,
      climb_cons hop, ihr hr' hro hright, climb_of_stops hs]

theorem climbed_spec (first : A) (more : List (BinaryOp × A)) :
    (climbed first more).first = first ∧ (climbed first more).rest = more ∧
      (climbed first more).IsOrdered := by
  obtain ⟨ho, -, hf, hr, hs⟩ := @climb_spec A 0 (operand first) more trivial trivial
    fun _ _ => trivial
  have hnil : (climb 0 (operand first) more).2 = [] := by
    cases h : (climb 0 (operand first) more).2 with
    | nil => rfl
    | cons p ps => exact absurd (hs p (by rw [h]; rfl)) (Nat.not_lt_zero _)
  rw [hnil, List.append_nil] at hr
  exact ⟨hf, hr, ho⟩

/-- There is no other ordered tree of the same operands and operators. -/
theorem eq_climbed (ho : t.IsOrdered) : t = climbed t.first t.rest := by
  have h0 : t.AtLeast 0 := by
    cases t with
    | operand a => trivial
    | node op l r => exact Nat.zero_le _
  have hnil : t.Precedes [] := fun _ hp => by cases hp
  have h := climb_rest ho h0 hnil
  rw [List.append_nil, climb_of_stops stops_nil] at h
  exact (congrArg Prod.fst h).symm

end OpTree

/-- The lexemes of an operand and what they stand for. -/
structure Operand where
  lexemes : List Lexeme
  value : Expr

namespace Operand

/-- The operand is a unary expression of the written grammar, and its lexemes can be read. -/
def IsUnary (o : Operand) : Prop :=
  Ebnf.Rule.unaryExpression.Image o.lexemes (.expression o.value) ∧ ∀ l ∈ o.lexemes, Readable l

end Operand

def joinedLexemes (first : Operand) (more : List (BinaryOp × Operand)) : List Lexeme :=
  first.lexemes ++ more.flatMap fun p => markLexeme p.1.mark :: p.2.lexemes

namespace OpTree

def toExpr : OpTree Operand → Expr
  | operand o => o.value
  | node op l r => .binary op l.toExpr r.toExpr

def lexemes (t : OpTree Operand) : List Lexeme := joinedLexemes t.first t.rest

theorem lexemes_operand (o : Operand) : (operand o).lexemes = o.lexemes := List.append_nil _

theorem lexemes_node (op : BinaryOp) (l r : OpTree Operand) :
    (node op l r).lexemes = l.lexemes ++ markLexeme op.mark :: r.lexemes := by
  simp [lexemes, joinedLexemes, first, rest]

end OpTree

theorem BinaryOp.strength_add_height (op : BinaryOp) : op.strength + op.precedence.height = 6 := by
  cases op <;> rfl

theorem OpTree.atLeast_one {A : Type} (t : OpTree A) : t.AtLeast 1 := by
  cases t with
  | operand a => trivial
  | node op l r =>
    have : 1 ≤ op.strength := by cases op <;> decide
    exact this

namespace Nonterminal

variable {u w : List Lexeme} {e : Expr} {p q : Precedence}

theorem joined_append {k : Expr → Expr} (h : (joined p).Derives u e)
    (hk : (operators p).Derives w k) : (joined p).Derives (u ++ w) (k e) := by
  obtain ⟨v, e₀, s, k₀, rfl, hv, hs, rfl⟩ := derives_joined.mp h
  exact derives_joined.mpr ⟨v, e₀, s ++ w, _, List.append_assoc .., hv, operators_append hs hk, rfl⟩

theorem joined_binary (op : BinaryOp) {e' : Expr} {x : Text}
    (h : (joined op.precedence).Derives u e) (h' : (operand op.precedence).Derives w e') :
    (joined op.precedence).Derives (u ++ ⟨.mark op.mark, x⟩ :: w) (.binary op e e') := by
  have ho : (operators op.precedence).Derives (⟨.mark op.mark, x⟩ :: (w ++ []))
      fun left => .binary op left e' :=
    derives_operators.mpr (.inl ⟨op, List.mem_filter.mpr ⟨op.mem_all, by simp⟩, _, w, e', [], _,
      rfl, h', operators_nil _, rfl⟩)
  rw [List.append_nil] at ho
  exact joined_append (k := fun left => .binary op left e') h ho

/-- What is joined by operators of a precedence is joined by weaker ones, too. -/
theorem joined_mono (hq : q.height ≤ p.height) (h : (joined q).Derives w e) :
    (joined p).Derives w e := by
  have step : ∀ {s s' : Precedence}, s.height + 1 = s'.height → (joined s).Derives w e →
      (joined s').Derives w e := by
    intro s s' hs h
    refine joined_of_operand (derives_operand.mpr ?_)
    cases s' <;> cases s <;> first | exact h | cases hs
  obtain ⟨n, hn⟩ := Nat.le.dest hq
  induction n generalizing p with
  | zero =>
    have : q = p := by cases p <;> cases q <;> first | rfl | cases hn
    exact this ▸ h
  | succ n ih =>
    obtain ⟨s, hs⟩ : ∃ s : Precedence, s.height + 1 = p.height := by
      cases p with
      | multiplicative => simp [Precedence.height] at hn
      | additive => exact ⟨.multiplicative, rfl⟩
      | relational => exact ⟨.additive, rfl⟩
      | equality => exact ⟨.relational, rfl⟩
      | conjunction => exact ⟨.equality, rfl⟩
      | disjunction => exact ⟨.conjunction, rfl⟩
    exact step hs (ih (by omega) (by omega))

theorem unary_name (x : Text) : unary.Derives [nameLexeme x] (.named x) :=
  unary_of_primary (derives_primary.mpr (.inl ⟨x, [], _, rfl, selections_nil, rfl⟩))

theorem joined_of_unary (h : unary.Derives w e) : (joined p).Derives w e :=
  joined_mono (q := .multiplicative) (Nat.zero_le _) (joined_of_operand (derives_operand.mpr h))

theorem operand_of_unary (h : unary.Derives w e) : (operand p).Derives w e := by
  refine derives_operand.mpr ?_
  cases p with
  | multiplicative => exact h
  | _ => exact joined_of_unary h

theorem expression_of_joined (h : (joined p).Derives w e) : expression.Derives w e := by
  have hd : (joined .disjunction).Derives w e := joined_mono (by cases p <;> decide) h
  have hc : conditional.Derives (w ++ []) e :=
    .intro (.head _) (.node hd (.last conditionalTail_nil rfl))
  rw [List.append_nil] at hc
  exact expression_of_conditional hc

/-- A tree that binds more tightly than the operators of a precedence can be their operand. -/
theorem operand_of_joined {t : OpTree Operand} (ht : t.AtLeast (7 - p.height))
    (hu : ∀ o, t = .operand o → unary.Derives o.lexemes o.value)
    (h : ∀ {q : Precedence}, t.AtLeast (6 - q.height) → (joined q).Derives t.lexemes t.toExpr) :
    (operand p).Derives t.lexemes t.toExpr := by
  refine derives_operand.mpr ?_
  cases p with
  | multiplicative =>
    cases t with
    | operand o => exact OpTree.lexemes_operand o ▸ hu o rfl
    | node op l r =>
      have := op.strength_add_height
      have : 7 ≤ op.strength := ht
      omega
  | additive => exact h (q := .multiplicative) ht
  | relational => exact h (q := .additive) ht
  | equality => exact h (q := .relational) ht
  | conjunction => exact h (q := .equality) ht
  | disjunction => exact h (q := .conjunction) ht

/-- The grammar reads an ordered tree where its weakest operators can stand. -/
theorem joined_of_isOrdered {t : OpTree Operand} (ho : t.IsOrdered)
    (hu : ∀ o ∈ t.first :: t.rest.map Prod.snd, unary.Derives o.lexemes o.value)
    (ht : t.AtLeast (6 - p.height)) : (joined p).Derives t.lexemes t.toExpr := by
  induction t generalizing p with
  | operand o =>
    exact OpTree.lexemes_operand o ▸ joined_of_unary (hu o (.head _))
  | node op l r ihl ihr =>
    obtain ⟨hl, hr, hlo, hro⟩ := ho
    have hs := op.strength_add_height
    have hul : ∀ o ∈ l.first :: l.rest.map Prod.snd, unary.Derives o.lexemes o.value := by
      intro o ho
      refine hu o ?_
      simp only [OpTree.first, OpTree.rest, List.map_append, List.map_cons, List.mem_cons,
        List.mem_append] at ho ⊢
      tauto
    have hur : ∀ o ∈ r.first :: r.rest.map Prod.snd, unary.Derives o.lexemes o.value := by
      intro o ho
      refine hu o ?_
      simp only [OpTree.first, OpTree.rest, List.map_append, List.map_cons, List.mem_cons,
        List.mem_append] at ho ⊢
      tauto
    have hleft := ihl hlo hul (p := op.precedence) (hl.mono (by omega))
    have hright : (operand op.precedence).Derives r.lexemes r.toExpr :=
      operand_of_joined (hr.mono (by omega))
        (fun o he => by subst he; exact hur o (.head _)) fun h => ihr hro hur h
    have hp : 6 - p.height ≤ op.strength := ht
    rw [OpTree.lexemes_node]
    exact joined_mono (by omega) (joined_binary _ hleft hright)

end Nonterminal

open Nonterminal

/-- The expression that a method returns is the tree that precedence climbing builds of its operands.
From left to right the tree has these operands and operators, and it is the only one that is
ordered. -/
theorem parse_climbed {header : List Lexeme} {m : MethodDeclaration} {first : Operand}
    {more : List (BinaryOp × Operand)} {source : Text} (hm : IsHeader header m)
    (hr : ∀ l ∈ header, Readable l) (hu : ∀ o ∈ first :: more.map Prod.snd, o.IsUnary)
    (hs : unescape source = spaced (returning header (joinedLexemes first more))) :
    let t := OpTree.climbed first more
    parse source = .ok (m.returning t.toExpr) ∧
      (t.first = first ∧ t.rest = more ∧ t.IsOrdered) ∧
      ∀ t' : OpTree Operand, t'.first = first → t'.rest = more → t'.IsOrdered → t' = t := by
  obtain ⟨hf, hmore, ho⟩ := OpTree.climbed_spec first more
  have hlexemes : (OpTree.climbed first more).lexemes = joinedLexemes first more := by
    rw [OpTree.lexemes, hf, hmore]
  have hunary : ∀ o ∈ first :: more.map Prod.snd, unary.Derives o.lexemes o.value := by
    intro o ho
    obtain ⟨e, hd, he⟩ := (hu o ho).1.means
    obtain rfl := Ebnf.Item.expression.inj he
    exact hd
  have hd : (joined .disjunction).Derives (joinedLexemes first more)
      (OpTree.climbed first more).toExpr :=
    hlexemes ▸ joined_of_isOrdered ho (by rwa [hf, hmore]) (OpTree.atLeast_one _)
  refine ⟨?_, ⟨hf, hmore, ho⟩, ?_⟩
  · refine parse_returning hm (expression_of_joined hd) ?_ hs
    have hfirst := (hu first (.head _)).2
    simp only [joinedLexemes, List.forall_mem_append, List.mem_flatMap, List.mem_cons]
    refine ⟨hr, hfirst, ?_⟩
    rintro l ⟨p, hp, rfl | hl⟩
    · exact readable_mark _
    · exact (hu p.2 (.tail _ (List.mem_map_of_mem hp))).2 l hl
  · rintro t' rfl rfl ho'
    exact OpTree.eq_climbed ho'

def Operand.named (x : Text) : Operand := ⟨[nameLexeme x], .named x⟩

def Operand.negated (x : Text) : Operand :=
  ⟨[markLexeme .minus, nameLexeme x], .unary .minus (.named x)⟩

theorem Operand.isUnary_named {x : Text} (h : IsIdentifier x) : (named x).IsUnary :=
  ⟨Ebnf.isWritten_of_derives (unary_name x), by simpa [named] using readable_name h⟩

theorem Operand.isUnary_negated {x : Text} (h : IsIdentifier x) : (negated x).IsUnary := by
  have hs : signed.Derives (negated x).lexemes (negated x).value :=
    .intro (.tail _ (.head _)) (.skip (.last (unary_name x) rfl))
  refine ⟨Ebnf.isWritten_of_derives (n := unary) (.intro (.head _) (.last hs rfl)), ?_⟩
  simpa [negated] using ⟨readable_mark .minus, readable_name h⟩

/-- A minus between two operands and one before an operand. -/
theorem parse_climbed_difference :
    let first := Operand.named "a"
    let more := [(.subtract, .negated "b"), (.multiply, .named "c")]
    (IsHeader plainHeader plainMethod ∧ (∀ l ∈ plainHeader, Readable l)) ∧
      (∀ o ∈ first :: more.map Prod.snd, o.IsUnary) ∧
      unescape "void f ( ) \x7b return a - - b * c ; \x7d " =
        spaced (returning plainHeader (joinedLexemes first more)) ∧
      parse "void f ( ) \x7b return a - - b * c ; \x7d " = .ok (plainMethod.returning
        (.binary .subtract (.named "a")
          (.binary .multiply (.unary .minus (.named "b")) (.named "c")))) := by
  intro first more
  have hr := readable_of_mem_plainHeader
  have hu : ∀ o ∈ first :: more.map Prod.snd, o.IsUnary := by
    simp only [first, more, List.map_cons, List.map_nil, List.forall_mem_cons]
    exact ⟨Operand.isUnary_named (by decide), Operand.isUnary_negated (by decide),
      Operand.isUnary_named (by decide), by simp⟩
  have hs : unescape "void f ( ) \x7b return a - - b * c ; \x7d " =
      spaced (returning plainHeader (joinedLexemes first more)) := by decide +kernel
  refine ⟨⟨isHeader_plainHeader, hr⟩, hu, hs, ?_⟩
  obtain ⟨hp, -, ht⟩ := parse_climbed isHeader_plainHeader hr hu hs
  rw [hp, ← ht (.node .subtract (.operand (.named "a"))
    (.node .multiply (.operand (.negated "b")) (.operand (.named "c")))) rfl rfl
    (by simp [OpTree.IsOrdered, OpTree.AtLeast, BinaryOp.strength])]
  rfl

end MemberAccess.Java
