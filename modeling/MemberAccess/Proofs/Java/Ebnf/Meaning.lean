import MemberAccess.Proofs.Java.Chain
import MemberAccess.Proofs.Java.Ebnf.Action

/-!
# What the items of a rule mean

A rule of the written grammar corresponds to a nonterminal of the grammar without left recursion,
and the item of its tree to a value derived from the nonterminal. For statements the two may differ
in which `if` has an `else`; where the branch of each `if` is in braces they agree.
-/

namespace MemberAccess.Java.Ebnf

/-- After the condition of each `if` there is a left brace. -/
def Braced (w : List Lexeme) : Prop :=
  ∀ (before c after : List Lexeme) (x y z : Text) (l : Lexeme),
    w = before ++ ⟨.keyword .if_, x⟩ :: ⟨.mark .leftParenthesis, y⟩ ::
      (c ++ ⟨.mark .rightParenthesis, z⟩ :: l :: after) →
    (∃ t, Derives .expression c t) → l.terminal = .mark .leftBrace

theorem Braced.left {u w : List Lexeme} (h : Braced (u ++ w)) : Braced u := by
  rintro before c after x y z l rfl hc
  exact h before c (after ++ w) x y z l (by simp) hc

theorem Braced.right {u w : List Lexeme} (h : Braced (u ++ w)) : Braced w := by
  rintro before c after x y z l rfl hc
  exact h (u ++ before) c after x y z l (by simp) hc

theorem Braced.tail {l : Lexeme} {w : List Lexeme} (h : Braced (l :: w)) : Braced w :=
  Braced.right (u := [l]) h

/-- The item is a value that the nonterminal derives. -/
def Exact (n : Nonterminal) (item : n.Value → Item) (w : List Lexeme) (x : Item) : Prop :=
  ∃ v : n.Value, n.Derives w v ∧ x = item v

/-- The nonterminal derives the lexemes, and the item is the value derived if every branch is in
braces. -/
def Agree (n : Nonterminal) (item : n.Value → Item) (w : List Lexeme) (x : Item) : Prop :=
  ∃ v v' : n.Value, n.Derives w v' ∧ x = item v ∧ (Braced w → v' = v)

section
variable {covers : Rule → List Lexeme → Item → Prop} {r : Rule} {n : Nonterminal}
  {item : n.Value → Item} {t : Terminal} {w : List Lexeme} {xs : List Item}

theorem Repeats.exact (hc : ∀ {u : List Lexeme} {x : Item}, covers r u x → Exact n item u x)
    (h : Repeats .token covers [.rule r] w xs) :
    ∃ vs, (Nonterminal.many n).Derives w vs ∧ xs = vs.map item := by
  induction h with
  | nil => exact ⟨[], .nil, rfl⟩
  | cons hu _ ih =>
    simp only [Reading.rule_iff, Reading.nil_iff] at hu
    obtain ⟨u, x, _, _, rfl, rfl, hu, rfl, rfl⟩ := hu
    obtain ⟨v, hv, rfl⟩ := hc hu
    obtain ⟨vs, hvs, rfl⟩ := ih
    rw [List.append_nil]
    exact ⟨v :: vs, .cons hv hvs, rfl⟩

theorem Repeats.exact_after (hc : ∀ {u : List Lexeme} {x : Item}, covers r u x → Exact n item u x)
    (h : Repeats .token covers [.skip t, .rule r] w xs) :
    ∃ vs, (Nonterminal.many (.after t n)).Derives w vs ∧ xs = vs.map item := by
  induction h with
  | nil => exact ⟨[], .nil, rfl⟩
  | cons hu _ ih =>
    simp only [Reading.skip_iff, Reading.rule_iff, Reading.nil_iff] at hu
    obtain ⟨y, _, rfl, u, x, _, _, rfl, rfl, hu, rfl, rfl⟩ := hu
    obtain ⟨v, hv, rfl⟩ := hc hu
    obtain ⟨vs, hvs, rfl⟩ := ih
    rw [List.append_nil]
    exact ⟨v :: vs, .cons (Nonterminal.derives_after.mpr ⟨y, u, rfl, hv⟩) hvs, rfl⟩

theorem Repeats.agree (hc : ∀ {u : List Lexeme} {x : Item}, covers r u x → Agree n item u x)
    (h : Repeats .token covers [.rule r] w xs) :
    ∃ vs vs', (Nonterminal.many n).Derives w vs' ∧ xs = vs.map item ∧ (Braced w → vs' = vs) := by
  induction h with
  | nil => exact ⟨[], [], .nil, rfl, fun _ => rfl⟩
  | cons hu _ ih =>
    simp only [Reading.rule_iff, Reading.nil_iff] at hu
    obtain ⟨u, x, _, _, rfl, rfl, hu, rfl, rfl⟩ := hu
    obtain ⟨v, v', hv, rfl, hvv⟩ := hc hu
    obtain ⟨vs, vs', hvs, rfl, hvvs⟩ := ih
    rw [List.append_nil]
    refine ⟨v :: vs, v' :: vs', .cons hv hvs, rfl, fun hb => ?_⟩
    rw [hvv hb.left, hvvs hb.right]

end

/-- The item is a place, which can be read as an operand and as the target of an assignment. -/
def MeansPlace (w : List Lexeme) (x : Item) : Prop :=
  ∃ p, x = .expression (.place p) ∧ Nonterminal.primary.Derives w (.place p) ∧
    ∀ {u : List Lexeme} {k : Place → Expr}, Nonterminal.placeTail.Derives u k →
      Nonterminal.expression.Derives (w ++ u) (k p)

/-- The item is a statement `s`, and the lexemes derive the links of `s'`, which are as many,
wherever a chain can stand. -/
def MeansStatement (w : List Lexeme) (x : Item) : Prop :=
  ∃ s s', x = .statement (.statement s) ∧ s'.links.length = s.links.length ∧
    (∀ {k : Nat} {more : List Lexeme} {v : Chain}, (Nonterminal.chainEnd k).Derives more v →
      (Nonterminal.chain k).Derives (w ++ more) (s'.links ++ v)) ∧
    (∃ l w', w = l :: w' ∧ (l.terminal = .mark .leftBrace → ∃ b, s = .block b)) ∧
    (Braced w → s' = s ∧ s.IsBraced)

open Nonterminal in
/-- What the item of a rule means. -/
def Means : Rule → List Lexeme → Item → Prop
  | .start | .methodDeclaration => Agree method .method
  | .modifier | .modifierKeyword => Exact modifier .modifier
  | .variableModifier | .finalModifier => Exact variableModifier .modifier
  | .atName => Exact marker fun x => .modifier (.marker x)
  | .qualifiedName => Exact name .text
  | .result => Exact result .type
  | .formalParameters => Exact formalParameters fun ps => .tuple (ps.map .formalParameter)
  | .formalParameter => Exact formalParameter .formalParameter
  | .throwsClause => Exact throwsClause Item.ofClassTypes
  | .typeBound => Exact bounds Item.ofClassTypes
  | .catchType => Exact catchTypes Item.ofClassTypes
  | .methodBody => Agree methodBody Item.ofBody
  | .type => Exact type Item.ofTypeExpr
  | .primitiveType => Exact primitive fun p => .ofTypeExpr (.primitive p 0)
  | .classType => Exact classType Item.ofClassType
  | .classTypePart => Exact classTypePart Item.ofClassTypePart
  | .typeArguments => Exact typeArguments fun as => .tuple (as.map .typeArgument)
  | .typeArgument | .wildcard => Exact typeArgument .typeArgument
  | .wildcardBound => fun w x => ∃ k y u t, (k = .extends_ ∨ k = .super) ∧
    w = ⟨.keyword k, y⟩ :: u ∧ type.Derives u t ∧ x = .tuple [.text k.text, .ofTypeExpr t]
  | .typeParameters => Exact typeParameters fun ps => .tuple (ps.map .typeParameter)
  | .typeParameter => Exact typeParameter .typeParameter
  | .dims => fun w x => ∃ k : Nat, dimensions.Derives w (k + 1) ∧ x = .number (k + 1)
  | .dim => fun w x => ∃ y z, w = [⟨.mark .leftBracket, y⟩, ⟨.mark .rightBracket, z⟩] ∧
    x = .number 1
  | .block => Agree block Item.ofBlock
  | .blockStatement => Agree blockStatement .statement
  | .localVariableDeclaration => Exact declaration .statement
  | .variableDeclarator => Exact declarator .declarator
  | .statement | .ifStatement | .whileStatement | .tryStatement | .returnStatement
  | .throwStatement | .expressionStatement | .emptyStatement => MeansStatement
  | .catchClause => Agree catchClause .catchClause
  | .finallyClause => Agree (after (.keyword .finally_) block) Item.ofBlock
  | .expression | .assignment => Exact expression .expression
  | .leftHandSide | .name | .fieldAccess | .arrayAccess => MeansPlace
  | .conditionalExpression => Exact conditional .expression
  | .binary p => Exact (joined p) .expression
  | .operator p => fun w x => ∃ op ∈ p.operators, ∃ y, w = [⟨.mark op.mark, y⟩] ∧
    x = .text op.mark.text
  | .unaryExpression => Exact unary .expression
  | .unaryExpressionNotPlusMinus => Exact unsigned .expression
  | .castExpression => Exact negationOrCast .expression
  | .primary | .methodInvocation | .atom | .literal | .thisExpression | .classLiteral
  | .classInstanceCreation => Exact primary .expression
  | .arguments => Exact arguments fun es => .tuple (es.map .expression)

/-- The lexemes can be read as the parts, with items that mean what their rules say. -/
abbrev Understood (ps : List Part) (w : List Lexeme) (xs : List Item) : Prop :=
  Reading .token (fun r w x => r.Image w x ∧ Means r w x) ps w xs

/-- Understood items make an item that means what the rule says. -/
def Rule.IsSound (r : Rule) : Prop :=
  ∀ {p : Production} {w : List Lexeme} {xs : List Item}, p ∈ r.productions →
    Understood p.parts w xs → ∃ x, p.item r xs = some x ∧ Means r w x

namespace Understood
variable {r : Rule} {n : Nonterminal} {item : n.Value → Item} {ps : List Part} {w : List Lexeme}
  {xs : List Item}

theorem exact (hm : ∀ u x, Means r u x → Exact n item u x) (h : Understood (.rule r :: ps) w xs) :
    ∃ u v w' xs', w = u ++ w' ∧ xs = item v :: xs' ∧ n.Derives u v ∧ Understood ps w' xs' := by
  obtain ⟨u, x, w', xs', rfl, rfl, ⟨-, hu⟩, h'⟩ := Reading.rule_iff.mp h
  obtain ⟨v, hv, rfl⟩ := hm u x hu
  exact ⟨u, v, w', xs', rfl, rfl, hv, h'⟩

theorem exact_opt (hm : ∀ u x, Means r u x → Exact n item u x)
    (h : Understood (.opt [.rule r] :: ps) w xs) :
    ∃ u v w' xs', w = u ++ w' ∧ xs = (v.map item).toList ++ xs' ∧
      (Nonterminal.opt n).Derives u v ∧ Understood ps w' xs' := by
  rcases Reading.opt_iff.mp h with h | ⟨u, us, w', xs', rfl, rfl, hu, h'⟩
  · exact ⟨[], none, w, xs, rfl, rfl, Nonterminal.derives_opt_none.mpr rfl, h⟩
  · obtain ⟨u, v, _, _, rfl, rfl, hv, hu⟩ := exact hm hu
    obtain ⟨rfl, rfl⟩ := Reading.nil_iff.mp hu
    exact ⟨u, some v, w', xs', by simp, rfl, Nonterminal.derives_opt_some.mpr hv, h'⟩

theorem exact_many (hm : ∀ u x, Means r u x → Exact n item u x)
    (h : Understood (.many [.rule r] :: ps) w xs) :
    ∃ u vs w' xs', w = u ++ w' ∧ xs = vs.map item ++ xs' ∧
      (Nonterminal.many n).Derives u vs ∧ Understood ps w' xs' := by
  obtain ⟨u, us, w', xs', rfl, rfl, hu, h'⟩ := Reading.many_iff.mp h
  obtain ⟨vs, hvs, rfl⟩ := hu.exact fun hu => hm _ _ hu.2
  exact ⟨u, vs, w', xs', rfl, rfl, hvs, h'⟩

theorem exact_separated {t : Terminal} (hm : ∀ u x, Means r u x → Exact n item u x)
    (h : Understood (.rule r :: .many [.skip t, .rule r] :: ps) w xs) :
    ∃ u v u' vs w' xs', w = u ++ (u' ++ w') ∧ xs = (v :: vs).map item ++ xs' ∧ n.Derives u v ∧
      (Nonterminal.many (.after t n)).Derives u' vs ∧ Understood ps w' xs' := by
  obtain ⟨u, v, _, _, rfl, rfl, hv, h'⟩ := exact hm h
  obtain ⟨u', us, w', xs', rfl, rfl, hu', h''⟩ := Reading.many_iff.mp h'
  obtain ⟨vs, hvs, rfl⟩ := hu'.exact_after fun hu => hm _ _ hu.2
  exact ⟨u, v, u', vs, w', xs', rfl, rfl, hv, hvs, h''⟩

theorem agree (hm : ∀ u x, Means r u x → Agree n item u x) (h : Understood (.rule r :: ps) w xs) :
    ∃ u v v' w' xs', w = u ++ w' ∧ xs = item v :: xs' ∧ n.Derives u v' ∧ (Braced u → v' = v) ∧
      Understood ps w' xs' := by
  obtain ⟨u, x, w', xs', rfl, rfl, ⟨-, hu⟩, h'⟩ := Reading.rule_iff.mp h
  obtain ⟨v, v', hv, rfl, hb⟩ := hm u x hu
  exact ⟨u, v, v', w', xs', rfl, rfl, hv, hb, h'⟩

theorem agree_opt (hm : ∀ u x, Means r u x → Agree n item u x)
    (h : Understood (.opt [.rule r] :: ps) w xs) :
    ∃ u v v' w' xs', w = u ++ w' ∧ xs = (v.map item).toList ++ xs' ∧
      (Nonterminal.opt n).Derives u v' ∧ (Braced u → v' = v) ∧ Understood ps w' xs' := by
  rcases Reading.opt_iff.mp h with h | ⟨u, us, w', xs', rfl, rfl, hu, h'⟩
  · exact ⟨[], none, none, w, xs, rfl, rfl, Nonterminal.derives_opt_none.mpr rfl, fun _ => rfl, h⟩
  · obtain ⟨u, v, v', _, _, rfl, rfl, hv, hb, hu⟩ := agree hm hu
    obtain ⟨rfl, rfl⟩ := Reading.nil_iff.mp hu
    refine ⟨u, some v, some v', w', xs', by simp, rfl, Nonterminal.derives_opt_some.mpr hv, ?_, h'⟩
    intro h
    rw [hb h]

theorem agree_many (hm : ∀ u x, Means r u x → Agree n item u x)
    (h : Understood (.many [.rule r] :: ps) w xs) :
    ∃ u vs vs' w' xs', w = u ++ w' ∧ xs = vs.map item ++ xs' ∧
      (Nonterminal.many n).Derives u vs' ∧ (Braced u → vs' = vs) ∧ Understood ps w' xs' := by
  obtain ⟨u, us, w', xs', rfl, rfl, hu, h'⟩ := Reading.many_iff.mp h
  obtain ⟨vs, vs', hvs, rfl, hb⟩ := hu.agree fun hu => hm _ _ hu.2
  exact ⟨u, vs, vs', w', xs', rfl, rfl, hvs, hb, h'⟩

end Understood

/-- A rule that only chooses means what the rules mean that it chooses from. -/
theorem Rule.isSound_of_oneOf {r : Rule} {rs : List Rule} (hr : r.productions = oneOf rs)
    (ht : r.isTransparent = true) (hm : ∀ r' ∈ rs, ∀ w x, Means r' w x → Means r w x) :
    r.IsSound := by
  intro p w xs hp h
  rw [hr] at hp
  obtain ⟨r', hr', rfl⟩ := List.mem_map.mp hp
  simp only [Reading.rule_iff, Reading.nil_iff] at h
  obtain ⟨u, x, _, _, rfl, rfl, ⟨-, hx⟩, rfl, rfl⟩ := h
  rw [List.append_nil]
  exact ⟨x, by simp [Production.item, ht], hm r' hr' u x hx⟩

end MemberAccess.Java.Ebnf
