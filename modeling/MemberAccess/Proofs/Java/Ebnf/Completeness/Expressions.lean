import MemberAccess.Proofs.Java.Ebnf.Completeness.Written

/-!
# Completeness: expressions

A tail goes on from an operand that has been derived by a rule that begins with itself.
-/

namespace MemberAccess.Java.Ebnf

open Nonterminal

namespace Rule.Image

variable {w : List Lexeme} {e : Expr} {x : Item}

theorem binary_of_operand {p : Precedence} (h : (Ebnf.operand p).Image w x) :
    (Rule.binary p).Image w x := .choose (.head _) rfl h

theorem primary_of_atom (h : Rule.atom.Image w x) : Rule.primary.Image w x :=
  .choose (.head _) rfl h

theorem unary_of_primary (h : Rule.primary.Image w x) : Rule.unaryExpression.Image w x :=
  .choose (.tail _ (.head _)) rfl (.choose (r := .unaryExpressionNotPlusMinus) (.head _) rfl h)

theorem expression_of_conditional (h : Rule.conditionalExpression.Image w x) :
    Rule.expression.Image w x := .choose (.head _) rfl h

end Rule.Image

open Rule.Image

theorem isComplete_literal : IsComplete literal := by
  intro a w v ha h
  simp only [alternatives, literalAlternatives, List.mem_cons, List.not_mem_nil, or_false] at ha
  rcases ha with rfl | rfl | rfl | rfl | rfl | rfl | rfl
  all_goals
    simp only [Grammar.readsBy_take, Grammar.readsBy_nil] at h
    obtain ⟨x, _, rfl, rfl, rfl⟩ := h
  · exact .of_rule (.head _) rfl (.take .nil) rfl
  · exact .of_rule (.tail _ (.head _)) rfl (.take .nil) rfl
  · exact .of_rule (.tail _ (.tail _ (.head _))) rfl (.take .nil) rfl
  · exact .of_rule (.tail _ (.tail _ (.tail _ (.head _)))) rfl (.take .nil) rfl
  · exact .of_rule (.tail _ (.tail _ (.tail _ (.tail _ (.head _))))) rfl (.take .nil) rfl
  · exact .of_rule (.tail _ (.tail _ (.tail _ (.tail _ (.tail _ (.head _)))))) rfl (.take .nil) rfl
  · exact .of_rule (.tail _ (.tail _ (.tail _ (.tail _ (.tail _ (.tail _ (.head _))))))) rfl
      (.take .nil) rfl

theorem isComplete_arguments : IsComplete arguments := by
  intro a w v ha h
  simp only [alternatives, argumentsAlternatives, List.mem_cons, List.not_mem_nil, or_false] at ha
  rcases ha with rfl | rfl
  · simp only [Grammar.readsBy_skip, Grammar.readsBy_nil] at h
    obtain ⟨x, _, rfl, y, _, rfl, rfl, rfl⟩ := h
    exact .of_rule (.head _) rfl (.skip (.without (.skip .nil))) rfl
  · simp only [Grammar.readsBy_skip, Grammar.readsBy_node, Grammar.readsBy_nil] at h
    obtain ⟨x, _, rfl, u, e, _, rfl, he, u', es, _, rfl, hes, y, _, rfl, rfl, rfl⟩ := h
    have hone := Reading.separated he hes image_nil
    have hr := Reading.skip (t := .mark .leftParenthesis) (x := x) (Reading.with_ hone
      (.skip (t := .mark .rightParenthesis) (x := y) image_nil))
    simp only [List.append_nil, List.append_assoc] at hr
    exact .of_rule (.head _) rfl hr rfl

theorem isComplete_atom : IsComplete atom := by
  intro a w v ha h
  simp only [alternatives, atomAlternatives, List.mem_cons, List.not_mem_nil, or_false] at ha
  rcases ha with rfl | rfl | rfl | rfl | rfl
  · obtain ⟨l, hl, rfl⟩ := Grammar.readsBy_last.mp h
    exact .choose (.head _) rfl hl
  · simp only [Grammar.readsBy_node, Grammar.readsBy_skip, Grammar.readsBy_nil] at h
    obtain ⟨u, t, _, rfl, ht, x, _, rfl, y, _, rfl, rfl, rfl⟩ := h
    have hc : Rule.classLiteral.Image (u ++ [⟨.mark .dot, x⟩, ⟨.keyword .class_, y⟩])
        (.expression (.classLiteral t)) :=
      .of_rule (.head _) rfl (.rule ht (.skip (.skip .nil))) rfl
    exact .choose (.tail _ (.head _)) rfl hc
  · simp only [Grammar.readsBy_skip, Grammar.readsBy_nil] at h
    obtain ⟨x, _, rfl, rfl, rfl⟩ := h
    have ht : Rule.thisExpression.Image [⟨.keyword .this, x⟩] (.expression .this) :=
      .of_rule (.head _) rfl (.skip .nil) rfl
    exact .choose (.tail _ (.tail _ (.head _))) rfl ht
  · simp only [Grammar.readsBy_node, Grammar.readsBy_skip, Grammar.readsBy_nil] at h
    obtain ⟨x, _, rfl, u, e, _, rfl, he, y, _, rfl, rfl, rfl⟩ := h
    exact .intro (.tail _ (.tail _ (.tail _ (.head _)))) (.skip (.rule he (.skip .nil))) rfl
  · simp only [Grammar.readsBy_node, Grammar.readsBy_skip, Grammar.readsBy_last] at h
    obtain ⟨x, _, rfl, u, c, u', rfl, hc, es, hes, rfl⟩ := h
    have hr := Reading.skip (t := .keyword .new) (x := x) (Reading.rule hc (.rule hes image_nil))
    rw [List.append_nil] at hr
    have hn : Rule.classInstanceCreation.Image (⟨.keyword .new, x⟩ :: (u ++ u'))
        (.expression (.new c es)) :=
      .of_rule (.head _) rfl hr (Action.ofRule_classInstanceCreation c es)
    exact .choose (.tail _ (.tail _ (.tail _ (.tail _ (.head _))))) rfl hn

theorem image_name (x : Text) :
    Rule.name.Image [⟨.identifier, x⟩] (.expression (.place (.named x))) :=
  .of_rule (.head _) rfl (.take .nil) rfl

theorem image_call {x : Text} {u : List Lexeme} {es : List Expr}
    (h : Rule.arguments.Image u (.tuple (es.map .expression))) :
    Rule.primary.Image (⟨.identifier, x⟩ :: u) (.expression (.call x es)) := by
  have hr := Reading.take (t := .identifier) (x := x) (Reading.rule h image_nil)
  rw [List.append_nil] at hr
  exact .choose (.tail _ (.head _)) rfl
    (.of_rule (r := .methodInvocation) (.head _) rfl hr (Action.ofRule_call x es))

section
variable {u v : List Lexeme} {e : Expr} {d x y : Text}

theorem image_field (h : Rule.primary.Image u (.expression e)) :
    Rule.fieldAccess.Image (u ++ [⟨.mark .dot, d⟩, ⟨.identifier, x⟩])
      (.expression (.place (.field e x))) :=
  .of_rule (.head _) rfl (.rule h (.skip (.take .nil))) rfl

theorem image_invoke {es : List Expr} (h : Rule.primary.Image u (.expression e))
    (hv : Rule.arguments.Image v (.tuple (es.map .expression))) :
    Rule.primary.Image (u ++ ⟨.mark .dot, d⟩ :: ⟨.identifier, x⟩ :: v)
      (.expression (.invoke e x es)) := by
  have hr := Reading.rule h (.skip (t := .mark .dot) (x := d)
    (.take (t := .identifier) (x := x) (.rule hv image_nil)))
  rw [List.append_nil] at hr
  exact .choose (.tail _ (.head _)) rfl
    (.of_rule (r := .methodInvocation) (.tail _ (.head _)) rfl hr (Action.ofRule_invoke e x es))

theorem image_element {i : Expr} (h : Rule.primary.Image u (.expression e))
    (hv : Rule.expression.Image v (.expression i)) :
    Rule.arrayAccess.Image (u ++ ⟨.mark .leftBracket, x⟩ :: (v ++ [⟨.mark .rightBracket, y⟩]))
      (.expression (.place (.element e i))) :=
  .of_rule (.head _) rfl (.rule h (.skip (.rule hv (.skip .nil)))) rfl

end

theorem isComplete_selections : IsComplete selections := by
  intro a w v ha h
  simp only [alternatives, selectionsAlternatives, List.mem_cons, List.not_mem_nil, or_false] at ha
  rcases ha with rfl | rfl | rfl | rfl
  · simp only [Grammar.readsBy_skip, Grammar.readsBy_take, Grammar.readsBy_last] at h
    obtain ⟨d, _, rfl, x, w, rfl, k, hk, rfl⟩ := h
    intro u e he
    have := hk (.choose (.tail _ (.tail _ (.head _))) rfl (image_field (d := d) (x := x) he))
    rwa [List.append_assoc] at this
  · simp only [Grammar.readsBy_skip, Grammar.readsBy_take, Grammar.readsBy_node,
      Grammar.readsBy_last] at h
    obtain ⟨d, _, rfl, x, _, rfl, v, es, w, rfl, hv, k, hk, rfl⟩ := h
    intro u e he
    have := hk (image_invoke (d := d) (x := x) he hv)
    rwa [List.append_assoc] at this
  · simp only [Grammar.readsBy_skip, Grammar.readsBy_node, Grammar.readsBy_last] at h
    obtain ⟨x, _, rfl, v, i, _, rfl, hv, y, w, rfl, k, hk, rfl⟩ := h
    intro u e he
    have := hk (.choose (.tail _ (.tail _ (.tail _ (.head _)))) rfl
      (image_element (x := x) (y := y) he hv))
    rwa [List.append_assoc, List.cons_append, List.append_assoc] at this
  · obtain ⟨rfl, rfl⟩ := h
    intro u e he
    rwa [List.append_nil]

theorem isComplete_primary : IsComplete primary := by
  intro a w v ha h
  simp only [alternatives, primaryAlternatives, List.mem_cons, List.not_mem_nil, or_false] at ha
  rcases ha with rfl | rfl | rfl
  · simp only [Grammar.readsBy_take, Grammar.readsBy_last] at h
    obtain ⟨x, w, rfl, k, hk, rfl⟩ := h
    exact hk (u := [_]) (primary_of_atom (.choose (.tail _ (.tail _ (.tail _ (.tail _ (.tail _
      (.head _)))))) rfl (image_name x)))
  · simp only [Grammar.readsBy_take, Grammar.readsBy_node, Grammar.readsBy_last] at h
    obtain ⟨x, _, rfl, u, es, w, rfl, hu, k, hk, rfl⟩ := h
    exact hk (u := _ :: u) (image_call hu)
  · simp only [Grammar.readsBy_node, Grammar.readsBy_last] at h
    obtain ⟨u, e, w, rfl, hu, k, hk, rfl⟩ := h
    exact hk (primary_of_atom hu)

theorem isComplete_signed : IsComplete signed := by
  have hsigned : ∀ {o : BinaryOp} {o' : UnaryOp} {x : Text} {w : List Lexeme} {e : Expr},
      o ∈ Precedence.additive.operators → Rule.unaryExpression.Image w (.expression e) →
      Action.prefixExpression [.text o.mark.text, .expression e] =
        some (.expression (.unary o' e)) →
      Rule.unaryExpression.Image (⟨.mark o.mark, x⟩ :: w) (.expression (.unary o' e)) := by
    intro o o' x w e ho he hx
    have hop : (Rule.operator .additive).Image [⟨.mark o.mark, x⟩] (.text o.mark.text) :=
      .of_rule (List.mem_map.mpr ⟨o, ho, rfl⟩) rfl (.take .nil) rfl
    have hr := Reading.rule hop (.rule he image_nil)
    rw [List.append_nil] at hr
    exact .intro (.head _) hr hx
  intro a w v ha h
  simp only [alternatives, signedAlternatives, List.mem_cons, List.not_mem_nil, or_false] at ha
  rcases ha with rfl | rfl
  · simp only [Grammar.readsBy_skip, Grammar.readsBy_last] at h
    obtain ⟨x, w, rfl, e, he, rfl⟩ := h
    exact hsigned (o := .add) (by decide) he rfl
  · simp only [Grammar.readsBy_skip, Grammar.readsBy_last] at h
    obtain ⟨x, w, rfl, e, he, rfl⟩ := h
    exact hsigned (o := .subtract) (by decide) he rfl

theorem isComplete_negationOrCast : IsComplete negationOrCast := by
  intro a w v ha h
  simp only [alternatives, negationOrCastAlternatives, List.mem_cons, List.not_mem_nil, or_false]
    at ha
  rcases ha with rfl | rfl | rfl
  · simp only [Grammar.readsBy_skip, Grammar.readsBy_last] at h
    obtain ⟨x, w, rfl, e, he, rfl⟩ := h
    have hr := Reading.skip (t := .mark .bang) (x := x) (Reading.rule he image_nil)
    rw [List.append_nil] at hr
    exact .intro (.tail _ (.head _)) hr rfl
  · simp only [Grammar.readsBy_skip, Grammar.readsBy_node, Grammar.readsBy_last] at h
    obtain ⟨x, _, rfl, u, p, _, rfl, hp, u', k, _, rfl, hk, y, w, rfl, e, he, rfl⟩ := h
    have hr := Reading.skip (t := .mark .leftParenthesis) (x := x) (Reading.rule hp (.opt_dims hk
      (.skip (t := .mark .rightParenthesis) (x := y) (.rule he image_nil))))
    rw [List.append_nil] at hr
    exact .choose (.tail _ (.tail _ (.head _))) rfl (.of_rule (r := .castExpression) (.head _) rfl
      hr (Action.ofRule_cast_primitive p k e))
  · simp only [Grammar.readsBy_skip, Grammar.readsBy_node, Grammar.readsBy_last] at h
    obtain ⟨x, _, rfl, u, c, _, rfl, hc, u', k, _, rfl, hk, y, w, rfl, e, he, rfl⟩ := h
    have hr := Reading.skip (t := .mark .leftParenthesis) (x := x) (Reading.rule hc (.opt_dims hk
      (.skip (t := .mark .rightParenthesis) (x := y) (.rule he image_nil))))
    rw [List.append_nil] at hr
    exact .choose (.tail _ (.tail _ (.head _))) rfl (.of_rule (r := .castExpression)
      (.tail _ (.head _)) rfl hr (Action.ofRule_cast_reference c k e))

theorem isComplete_unsigned : IsComplete unsigned := by
  intro a w v ha h
  simp only [alternatives, List.mem_cons, List.not_mem_nil, or_false] at ha
  rcases ha with rfl | rfl
  · obtain ⟨e, he, rfl⟩ := Grammar.readsBy_last.mp h
    exact .choose (.head _) rfl he
  · obtain ⟨e, he, rfl⟩ := Grammar.readsBy_last.mp h
    exact he

theorem isComplete_unary : IsComplete unary := by
  intro a w v ha h
  simp only [alternatives, List.mem_cons, List.not_mem_nil, or_false] at ha
  rcases ha with rfl | rfl
  · obtain ⟨e, he, rfl⟩ := Grammar.readsBy_last.mp h
    exact he
  · obtain ⟨e, he, rfl⟩ := Grammar.readsBy_last.mp h
    exact .choose (.tail _ (.head _)) rfl he

theorem isComplete_operand (p : Precedence) : IsComplete (.operand p) := by
  intro a w v ha h
  cases p <;>
    (obtain rfl := List.mem_singleton.mp ha
     obtain ⟨e, he, rfl⟩ := Grammar.readsBy_last.mp h
     exact he)

theorem isComplete_joined (p : Precedence) : IsComplete (joined p) := by
  intro a w v ha h
  obtain rfl := List.mem_singleton.mp ha
  simp only [Grammar.readsBy_node, Grammar.readsBy_last] at h
  obtain ⟨u, e, w, rfl, he, k, hk, rfl⟩ := h
  exact hk (binary_of_operand he)

theorem isComplete_operators (p : Precedence) : IsComplete (operators p) := by
  intro a w v ha h
  simp only [alternatives, operatorsAlternatives, List.mem_append, List.mem_map,
    List.mem_singleton] at ha
  rcases ha with (⟨op, ho, rfl⟩ | ha) | rfl
  · simp only [operatorAlternative, Grammar.readsBy_skip, Grammar.readsBy_node,
      Grammar.readsBy_last] at h
    obtain ⟨x, _, rfl, v, r, w, rfl, hr, k, hk, rfl⟩ := h
    intro u e he
    have hop : (Rule.operator p).Image [⟨.mark op.mark, x⟩] (.text op.mark.text) :=
      .of_rule (List.mem_map.mpr ⟨op, ho, rfl⟩) rfl (.take .nil) rfl
    have hread := Reading.rule he (.rule hop (.rule hr image_nil))
    rw [List.append_nil] at hread
    have := hk (.intro (List.mem_append_left _ (.tail _ (.head _))) hread
      (Action.binaryExpression_eq op e r))
    rwa [List.append_assoc, List.append_assoc] at this
  · split at ha
    · subst p
      obtain rfl := List.mem_singleton.mp ha
      simp only [Grammar.readsBy_skip, Grammar.readsBy_node, Grammar.readsBy_last] at h
      obtain ⟨x, _, rfl, v, t, w, rfl, ht, k, hk, rfl⟩ := h
      intro u e he
      have hread := Reading.rule he (.skip (t := .keyword .instanceof) (x := x) (.rule ht image_nil))
      rw [List.append_nil] at hread
      have := hk (.intro (.tail _ (.tail _ (.head _))) hread rfl)
      rwa [List.append_assoc] at this
    · cases ha
  · obtain ⟨rfl, rfl⟩ := h
    intro u e he
    rwa [List.append_nil]

theorem isComplete_conditionalTail : IsComplete conditionalTail := by
  intro a w v ha h
  simp only [alternatives, conditionalTailAlternatives, List.mem_cons, List.not_mem_nil, or_false]
    at ha
  rcases ha with rfl | rfl
  · simp only [Grammar.readsBy_skip, Grammar.readsBy_node, Grammar.readsBy_last] at h
    obtain ⟨x, _, rfl, v, t, _, rfl, ht, y, w, rfl, e, he, rfl⟩ := h
    intro u c hc
    have hr := Reading.rule hc (.skip (t := .mark .question) (x := x) (.rule ht
      (.skip (t := .mark .colon) (x := y) (.rule he image_nil))))
    rw [List.append_nil] at hr
    exact .intro (.tail _ (.head _)) hr rfl
  · obtain ⟨rfl, rfl⟩ := h
    intro u c hc
    rw [List.append_nil]
    exact .choose (.head _) rfl hc

theorem isComplete_conditional : IsComplete conditional := by
  intro a w v ha h
  obtain rfl := List.mem_singleton.mp ha
  simp only [Grammar.readsBy_node, Grammar.readsBy_last] at h
  obtain ⟨u, e, w, rfl, he, k, hk, rfl⟩ := h
  exact hk he

theorem isComplete_operatorTail : IsComplete operatorTail := by
  intro a w v ha h
  obtain rfl := List.mem_singleton.mp ha
  simp only [Grammar.readsBy_node, Grammar.readsBy_last] at h
  obtain ⟨t₁, k₁, _, rfl, h₁, t₂, k₂, _, rfl, h₂, t₃, k₃, _, rfl, h₃, t₄, k₄, _, rfl, h₄,
    t₅, k₅, _, rfl, h₅, t₆, k₆, t₇, rfl, h₆, k₇, h₇, rfl⟩ := h
  intro u e he
  have h := h₁ (binary_of_operand he)
  have h := h₂ (binary_of_operand h)
  have h := h₃ (binary_of_operand h)
  have h := h₄ (binary_of_operand h)
  have h := h₅ (binary_of_operand h)
  have h := h₇ (h₆ (binary_of_operand h))
  simpa only [List.append_assoc] using h

theorem isComplete_placeTail : IsComplete placeTail := by
  intro a w v ha h
  simp only [alternatives, placeTailAlternatives, List.mem_cons, List.not_mem_nil, or_false] at ha
  rcases ha with rfl | rfl
  · simp only [Grammar.readsBy_skip, Grammar.readsBy_last] at h
    obtain ⟨x, w, rfl, e, he, rfl⟩ := h
    intro u p hp _
    have hr := Reading.rule hp (.skip (t := .mark .equal) (x := x) (.rule he image_nil))
    rw [List.append_nil] at hr
    exact .choose (.tail _ (.head _)) rfl (.of_rule (r := .assignment) (.head _) rfl hr rfl)
  · obtain ⟨k, hk, rfl⟩ := Grammar.readsBy_last.mp h
    intro u p _ hp
    exact hk hp

theorem isComplete_operandTail : IsComplete operandTail := by
  intro a w v ha h
  simp only [alternatives, operandTailAlternatives, List.mem_cons, List.not_mem_nil, or_false]
    at ha
  rcases ha with rfl | rfl | rfl | rfl
  · simp only [Grammar.readsBy_skip, Grammar.readsBy_take, Grammar.readsBy_last] at h
    obtain ⟨d, _, rfl, x, w, rfl, k, hk, rfl⟩ := h
    intro u e he
    have hf := image_field (d := d) (x := x) he
    have := hk (.choose (.tail _ (.head _)) rfl hf) (.choose (.tail _ (.tail _ (.head _))) rfl hf)
    rwa [List.append_assoc] at this
  · simp only [Grammar.readsBy_skip, Grammar.readsBy_take, Grammar.readsBy_node,
      Grammar.readsBy_last] at h
    obtain ⟨d, _, rfl, x, _, rfl, v, es, w, rfl, hv, k, hk, rfl⟩ := h
    intro u e he
    have := hk (image_invoke (d := d) (x := x) he hv)
    rwa [List.append_assoc] at this
  · simp only [Grammar.readsBy_skip, Grammar.readsBy_node, Grammar.readsBy_last] at h
    obtain ⟨x, _, rfl, v, i, _, rfl, hv, y, w, rfl, k, hk, rfl⟩ := h
    intro u e he
    have hel := image_element (x := x) (y := y) he hv
    have := hk (.choose (.tail _ (.tail _ (.head _))) rfl hel)
      (.choose (.tail _ (.tail _ (.tail _ (.head _)))) rfl hel)
    rwa [List.append_assoc, List.cons_append, List.append_assoc] at this
  · obtain ⟨k, hk, rfl⟩ := Grammar.readsBy_last.mp h
    intro u e he
    exact expression_of_conditional (hk (unary_of_primary he))

theorem isComplete_expression : IsComplete expression := by
  intro a w v ha h
  simp only [alternatives, expressionAlternatives, List.mem_cons, List.not_mem_nil, or_false] at ha
  rcases ha with rfl | rfl | rfl | rfl | rfl
  · simp only [Grammar.readsBy_take, Grammar.readsBy_last] at h
    obtain ⟨x, w, rfl, k, hk, rfl⟩ := h
    exact hk (u := [_]) (.choose (.head _) rfl (image_name x))
      (primary_of_atom (.choose (.tail _ (.tail _ (.tail _ (.tail _ (.tail _ (.head _)))))) rfl
        (image_name x)))
  · simp only [Grammar.readsBy_take, Grammar.readsBy_node, Grammar.readsBy_last] at h
    obtain ⟨x, _, rfl, u, es, w, rfl, hu, k, hk, rfl⟩ := h
    exact hk (u := _ :: u) (image_call hu)
  · simp only [Grammar.readsBy_node, Grammar.readsBy_last] at h
    obtain ⟨u, e, w, rfl, hu, k, hk, rfl⟩ := h
    exact hk (primary_of_atom hu)
  · simp only [Grammar.readsBy_node, Grammar.readsBy_last] at h
    obtain ⟨u, e, w, rfl, hu, k, hk, rfl⟩ := h
    exact expression_of_conditional (hk hu)
  · simp only [Grammar.readsBy_node, Grammar.readsBy_last] at h
    obtain ⟨u, e, w, rfl, hu, k, hk, rfl⟩ := h
    exact expression_of_conditional (hk (.choose (.tail _ (.head _)) rfl hu))

end MemberAccess.Java.Ebnf
