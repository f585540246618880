import MemberAccess.Proofs.Java.Ebnf.Soundness.Types

/-!
# Soundness: expressions

Rules that begin with themselves read operators and selections from the right; the grammar without
left recursion reads them as tails, which are put together here.
-/

namespace MemberAccess.Java.Ebnf

open Nonterminal (derives_primary derives_joined derives_operand derives_operators primary_of_atom
  primary_append operators_append expression_of_primary)

theorem MeansPlace.exact {w : List Lexeme} {x : Item} (h : MeansPlace w x) :
    Exact .primary .expression w x := by
  obtain ⟨p, rfl, hp, -⟩ := h
  exact ⟨.place p, hp, rfl⟩

namespace Rule

theorem derives_no_selections : Nonterminal.selections.Derives [] fun e => e :=
  .intro (.tail _ (.tail _ (.tail _ (.head _)))) (.nil _)

theorem isSound_name : name.IsSound := by
  intro p w xs hp h
  obtain rfl := List.mem_singleton.mp hp
  simp only [Reading.take_iff, Reading.nil_iff] at h
  obtain ⟨x, _, _, rfl, rfl, rfl, rfl⟩ := h
  refine ⟨.expression (.place (.named x)), rfl, .named x, rfl, ?_, ?_⟩
  · exact derives_primary.mpr (.inl ⟨x, [], _, rfl, derives_no_selections, rfl⟩)
  · intro u k hk
    exact .intro (.head _) (.take (.last hk rfl))

theorem isSound_fieldAccess : fieldAccess.IsSound := by
  intro p w xs hp h
  obtain rfl := List.mem_singleton.mp hp
  obtain ⟨u, e, _, _, rfl, rfl, he, h₁⟩ := h.exact fun _ _ => id
  simp only [Reading.skip_iff, Reading.take_iff, Reading.nil_iff] at h₁
  obtain ⟨d, _, rfl, x, _, _, rfl, rfl, rfl, rfl⟩ := h₁
  refine ⟨.expression (.place (.field e x)), rfl, .field e x, rfl, ?_, ?_⟩
  · have hk : Nonterminal.selections.Derives [⟨.mark .dot, d⟩, ⟨.identifier, x⟩]
        fun e => .place (.field e x) :=
      .intro (.head _) (.skip (.take (.last derives_no_selections rfl)))
    exact primary_append he hk
  · intro u' k hk
    rw [List.append_assoc]
    exact expression_of_primary he (k := fun e => k (.field e x))
      (.intro (.head _) (.skip (.take (.last hk rfl))))

theorem isSound_arrayAccess : arrayAccess.IsSound := by
  intro p w xs hp h
  obtain rfl := List.mem_singleton.mp hp
  obtain ⟨u, e, _, _, rfl, rfl, he, h₁⟩ := h.exact fun _ _ => id
  obtain ⟨y, _, rfl, h₂⟩ := Reading.skip_iff.mp h₁
  obtain ⟨u', i, _, _, rfl, rfl, hi, h₃⟩ := Understood.exact (fun _ _ => id) h₂
  simp only [Reading.skip_iff, Reading.nil_iff] at h₃
  obtain ⟨z, _, rfl, rfl, rfl⟩ := h₃
  refine ⟨.expression (.place (.element e i)), rfl, .element e i, rfl, ?_, ?_⟩
  · have hk : Nonterminal.selections.Derives
        (⟨.mark .leftBracket, y⟩ :: (u' ++ [⟨.mark .rightBracket, z⟩]))
        fun e => .place (.element e i) :=
      .intro (.tail _ (.tail _ (.head _)))
        (.skip (.node hi (.skip (.last derives_no_selections rfl))))
    exact primary_append he hk
  · intro t k hk
    rw [List.append_assoc, List.cons_append, List.append_assoc]
    exact expression_of_primary he (k := fun e => k (.element e i))
      (.intro (.tail _ (.tail _ (.head _))) (.skip (.node hi (.skip (.last hk rfl)))))

theorem isSound_arguments : arguments.IsSound := by
  intro p w xs hp h
  obtain rfl := List.mem_singleton.mp hp
  obtain ⟨y, w', rfl, h₁⟩ := Reading.skip_iff.mp h
  rcases Reading.opt_iff.mp h₁ with h₂ | ⟨_, _, _, _, rfl, rfl, h₂, h₃⟩
  · simp only [Reading.skip_iff, Reading.nil_iff] at h₂
    obtain ⟨z, _, rfl, rfl, rfl⟩ := h₂
    exact ⟨.tuple [], rfl, [], .intro (.head _) (.skip (.skip (.nil _))), rfl⟩
  · obtain ⟨u, e, u', es, _, _, rfl, rfl, he, hes, h₄⟩ :=
      Understood.exact_separated (fun _ _ => id) h₂
    obtain ⟨rfl, rfl⟩ := Reading.nil_iff.mp h₄
    simp only [Reading.skip_iff, Reading.nil_iff] at h₃
    obtain ⟨z, _, rfl, rfl, rfl⟩ := h₃
    rw [List.append_nil, List.append_nil, List.append_nil, List.append_assoc]
    refine ⟨.tuple ((e :: es).map .expression), ?_, e :: es, ?_, rfl⟩
    · rw [Production.item_of_rule rfl, Action.ofRule]
    · exact .intro (.tail _ (.head _)) (.skip (.node he (.node hes (.skip (.nil _)))))

theorem isSound_methodInvocation : methodInvocation.IsSound := by
  intro p w xs hp h
  simp only [productions, List.mem_cons, List.not_mem_nil, or_false] at hp
  rcases hp with rfl | rfl
  · obtain ⟨x, _, _, rfl, rfl, h₁⟩ := Reading.take_iff.mp h
    obtain ⟨u, es, _, _, rfl, rfl, hes, h₂⟩ := Understood.exact (fun _ _ => id) h₁
    obtain ⟨rfl, rfl⟩ := Reading.nil_iff.mp h₂
    refine ⟨.expression (.call x es), ?_, .call x es, ?_, rfl⟩
    · rw [Production.item_of_rule rfl, Action.ofRule_call]
    · exact derives_primary.mpr
        (.inr (.inl ⟨x, u, es, [], _, rfl, hes, derives_no_selections, rfl⟩))
  · obtain ⟨u, e, _, _, rfl, rfl, he, h₁⟩ := h.exact fun _ _ => id
    obtain ⟨d, _, rfl, h₂⟩ := Reading.skip_iff.mp h₁
    obtain ⟨x, _, _, rfl, rfl, h₃⟩ := Reading.take_iff.mp h₂
    obtain ⟨u', es, _, _, rfl, rfl, hes, h₄⟩ := Understood.exact (fun _ _ => id) h₃
    obtain ⟨rfl, rfl⟩ := Reading.nil_iff.mp h₄
    refine ⟨.expression (.invoke e x es), ?_, .invoke e x es, ?_, rfl⟩
    · rw [Production.item_of_rule rfl, Action.ofRule_invoke]
    · have hk : Nonterminal.selections.Derives
          (⟨.mark .dot, d⟩ :: ⟨.identifier, x⟩ :: (u' ++ [])) fun e => .invoke e x es :=
        .intro (.tail _ (.head _)) (.skip (.take (.node hes (.last derives_no_selections rfl))))
      exact primary_append he hk

theorem isSound_classInstanceCreation : classInstanceCreation.IsSound := by
  intro p w xs hp h
  obtain rfl := List.mem_singleton.mp hp
  obtain ⟨y, _, rfl, h₁⟩ := Reading.skip_iff.mp h
  obtain ⟨u, c, _, _, rfl, rfl, hc, h₂⟩ := Understood.exact (fun _ _ => id) h₁
  obtain ⟨u', es, _, _, rfl, rfl, hes, h₃⟩ := Understood.exact (fun _ _ => id) h₂
  obtain ⟨rfl, rfl⟩ := Reading.nil_iff.mp h₃
  rw [List.append_nil]
  refine ⟨.expression (.new c es), ?_, .new c es, primary_of_atom ?_, rfl⟩
  · rw [Production.item_of_rule rfl, Action.ofRule_classInstanceCreation]
  · exact .intro (.tail _ (.tail _ (.tail _ (.tail _ (.head _))))) (.skip (.node hc (.last hes rfl)))

theorem isSound_classLiteral : classLiteral.IsSound := by
  intro p w xs hp h
  obtain rfl := List.mem_singleton.mp hp
  obtain ⟨u, t, _, _, rfl, rfl, ht, h₁⟩ := h.exact fun _ _ => id
  simp only [Reading.skip_iff, Reading.nil_iff] at h₁
  obtain ⟨y, _, rfl, z, _, rfl, rfl, rfl⟩ := h₁
  exact ⟨.expression (.classLiteral t), rfl, .classLiteral t, primary_of_atom
    (.intro (.tail _ (.head _)) (.node ht (.skip (.skip (.nil _))))), rfl⟩

theorem isSound_thisExpression : thisExpression.IsSound := by
  intro p w xs hp h
  obtain rfl := List.mem_singleton.mp hp
  simp only [Reading.skip_iff, Reading.nil_iff] at h
  obtain ⟨y, _, rfl, rfl, rfl⟩ := h
  exact ⟨.expression .this, rfl, .this,
    primary_of_atom (.intro (.tail _ (.tail _ (.head _))) (.skip (.nil _))), rfl⟩

theorem isSound_literal : literal.IsSound := by
  have hatom : ∀ {w : List Lexeme} {l : Literal}, Nonterminal.literal.Derives w l →
      Exact .primary .expression w (.expression (.literal l)) := fun hl =>
    ⟨_, primary_of_atom (.intro (.head _) (.last hl rfl)), rfl⟩
  intro p w xs hp h
  simp only [productions, List.mem_cons, List.not_mem_nil, or_false] at hp
  rcases hp with rfl | rfl | rfl | rfl | rfl | rfl | rfl
  all_goals
    simp only [Reading.take_iff, Reading.nil_iff] at h
    obtain ⟨x, _, _, rfl, rfl, rfl, rfl⟩ := h
  · exact ⟨_, rfl, hatom (.intro (.head _) (.take (.nil _)))⟩
  · exact ⟨_, rfl, hatom (.intro (.tail _ (.head _)) (.take (.nil _)))⟩
  · exact ⟨_, rfl, hatom (.intro (.tail _ (.tail _ (.head _))) (.take (.nil _)))⟩
  · exact ⟨_, rfl, hatom (.intro (.tail _ (.tail _ (.tail _ (.head _)))) (.take (.nil _)))⟩
  · exact ⟨_, rfl, hatom (.intro (.tail _ (.tail _ (.tail _ (.tail _ (.head _))))) (.take (.nil _)))⟩
  · exact ⟨_, rfl, hatom
      (.intro (.tail _ (.tail _ (.tail _ (.tail _ (.tail _ (.head _)))))) (.take (.nil _)))⟩
  · exact ⟨_, rfl, hatom
      (.intro (.tail _ (.tail _ (.tail _ (.tail _ (.tail _ (.tail _ (.head _)))))))
        (.take (.nil _)))⟩

theorem isSound_atom : atom.IsSound := by
  intro p w xs hp h
  simp only [productions, List.mem_cons, List.not_mem_nil, or_false] at hp
  rcases hp with rfl | rfl | rfl | rfl | rfl | rfl
  case' inr.inr.inr.inl =>
    obtain ⟨y, _, rfl, h₁⟩ := Reading.skip_iff.mp h
    obtain ⟨u, e, _, _, rfl, rfl, he, h₂⟩ := Understood.exact (fun _ _ => id) h₁
    simp only [Reading.skip_iff, Reading.nil_iff] at h₂
    obtain ⟨z, _, rfl, rfl, rfl⟩ := h₂
    exact ⟨.expression e, rfl, e, primary_of_atom (.intro (.tail _ (.tail _ (.tail _ (.head _))))
      (.skip (.node he (.skip (.nil _))))), rfl⟩
  case' inr.inr.inr.inr.inr =>
    obtain ⟨u, x, _, _, rfl, rfl, ⟨-, hx⟩, h₁⟩ := Reading.rule_iff.mp h
    obtain ⟨rfl, rfl⟩ := Reading.nil_iff.mp h₁
    rw [List.append_nil]
    exact ⟨x, rfl, MeansPlace.exact hx⟩
  all_goals
    obtain ⟨u, e, _, _, rfl, rfl, he, h₁⟩ := h.exact fun _ _ => id
    obtain ⟨rfl, rfl⟩ := Reading.nil_iff.mp h₁
    rw [List.append_nil]
    exact ⟨.expression e, rfl, e, he, rfl⟩

theorem isSound_primary : primary.IsSound := by
  refine isSound_of_oneOf rfl rfl ?_
  simp only [List.mem_cons, List.not_mem_nil, or_false]
  rintro r' (rfl | rfl | rfl | rfl) w x h
  · exact h
  · exact h
  · exact MeansPlace.exact h
  · exact MeansPlace.exact h

theorem isSound_castExpression : castExpression.IsSound := by
  intro p w xs hp h
  simp only [productions, List.mem_cons, List.not_mem_nil, or_false] at hp
  rcases hp with rfl | rfl
  · obtain ⟨y, _, rfl, h₁⟩ := Reading.skip_iff.mp h
    obtain ⟨u, q, _, _, rfl, rfl, hq, h₂⟩ := Understood.exact (fun _ _ => id) h₁
    obtain ⟨u', k, _, _, rfl, rfl, hk, h₃⟩ := exact_opt_dims h₂
    obtain ⟨z, _, rfl, h₄⟩ := Reading.skip_iff.mp h₃
    obtain ⟨v, e, _, _, rfl, rfl, he, h₅⟩ := Understood.exact (fun _ _ => id) h₄
    obtain ⟨rfl, rfl⟩ := Reading.nil_iff.mp h₅
    rw [List.append_nil]
    refine ⟨.expression (.cast (.primitive q k) e), ?_, _, ?_, rfl⟩
    · rw [Production.item_of_rule rfl, Action.ofRule_cast_primitive]
    · exact .intro (.tail _ (.head _)) (.skip (.node hq (.node hk (.skip (.last he rfl)))))
  · obtain ⟨y, _, rfl, h₁⟩ := Reading.skip_iff.mp h
    obtain ⟨u, c, _, _, rfl, rfl, hc, h₂⟩ := Understood.exact (fun _ _ => id) h₁
    obtain ⟨u', k, _, _, rfl, rfl, hk, h₃⟩ := exact_opt_dims h₂
    obtain ⟨z, _, rfl, h₄⟩ := Reading.skip_iff.mp h₃
    obtain ⟨v, e, _, _, rfl, rfl, he, h₅⟩ := Understood.exact (fun _ _ => id) h₄
    obtain ⟨rfl, rfl⟩ := Reading.nil_iff.mp h₅
    rw [List.append_nil]
    refine ⟨.expression (.cast (.reference c k) e), ?_, _, ?_, rfl⟩
    · rw [Production.item_of_rule rfl, Action.ofRule_cast_reference]
    · exact .intro (.tail _ (.tail _ (.head _)))
        (.skip (.node hc (.node hk (.skip (.last he rfl)))))

theorem isSound_unaryExpressionNotPlusMinus : unaryExpressionNotPlusMinus.IsSound := by
  intro p w xs hp h
  simp only [productions, List.mem_cons, List.not_mem_nil, or_false] at hp
  rcases hp with rfl | rfl | rfl
  · obtain ⟨u, e, _, _, rfl, rfl, he, h₁⟩ := h.exact fun _ _ => id
    obtain ⟨rfl, rfl⟩ := Reading.nil_iff.mp h₁
    rw [List.append_nil]
    exact ⟨.expression e, rfl, e, .intro (.head _) (.last he rfl), rfl⟩
  · obtain ⟨y, _, rfl, h₁⟩ := Reading.skip_iff.mp h
    obtain ⟨u, e, _, _, rfl, rfl, he, h₂⟩ := Understood.exact (fun _ _ => id) h₁
    obtain ⟨rfl, rfl⟩ := Reading.nil_iff.mp h₂
    rw [List.append_nil]
    have hn : Nonterminal.negationOrCast.Derives (⟨.mark .bang, y⟩ :: u) (.unary .not e) :=
      .intro (.head _) (.skip (.last he rfl))
    exact ⟨.expression (.unary .not e), rfl, _, .intro (.tail _ (.head _)) (.last hn rfl), rfl⟩
  · obtain ⟨u, e, _, _, rfl, rfl, he, h₁⟩ := h.exact fun _ _ => id
    obtain ⟨rfl, rfl⟩ := Reading.nil_iff.mp h₁
    rw [List.append_nil]
    exact ⟨.expression e, rfl, e, .intro (.tail _ (.head _)) (.last he rfl), rfl⟩

theorem isSound_operator (q : Precedence) : (operator q).IsSound := by
  intro p w xs hp h
  simp only [productions, List.mem_map] at hp
  obtain ⟨op, ho, rfl⟩ := hp
  simp only [Reading.take_iff, Reading.nil_iff] at h
  obtain ⟨y, _, _, rfl, rfl, rfl, rfl⟩ := h
  exact ⟨.text op.mark.text, rfl, op, ho, y, rfl, rfl⟩

theorem isSound_unaryExpression : unaryExpression.IsSound := by
  have hsigned : ∀ {w : List Lexeme} {e : Expr}, Nonterminal.signed.Derives w e →
      Nonterminal.unary.Derives w e := fun h => .intro (.head _) (.last h rfl)
  intro p w xs hp h
  simp only [productions, List.mem_cons, List.not_mem_nil, or_false] at hp
  rcases hp with rfl | rfl
  · obtain ⟨_, x, _, _, rfl, rfl, ⟨-, op, ho, y, rfl, rfl⟩, h₁⟩ := Reading.rule_iff.mp h
    obtain ⟨u, e, _, _, rfl, rfl, he, h₂⟩ := Understood.exact (fun _ _ => id) h₁
    obtain ⟨rfl, rfl⟩ := Reading.nil_iff.mp h₂
    rw [List.append_nil]
    have ho : op = .add ∨ op = .subtract := by revert ho; cases op <;> decide
    rcases ho with rfl | rfl
    · exact ⟨.expression (.unary .plus e), rfl, _,
        hsigned (.intro (.head _) (.skip (.last he rfl))), rfl⟩
    · exact ⟨.expression (.unary .minus e), rfl, _,
        hsigned (.intro (.tail _ (.head _)) (.skip (.last he rfl))), rfl⟩
  · obtain ⟨u, e, _, _, rfl, rfl, he, h₁⟩ := h.exact fun _ _ => id
    obtain ⟨rfl, rfl⟩ := Reading.nil_iff.mp h₁
    rw [List.append_nil]
    exact ⟨.expression e, rfl, e, .intro (.tail _ (.head _)) (.last he rfl), rfl⟩

theorem exact_operand (q : Precedence) :
    ∀ w x, Means (operand q) w x → Exact (.operand q) .expression w x := by
  rintro w x h
  cases q <;> (obtain ⟨e, he, rfl⟩ := h; exact ⟨e, derives_operand.mpr he, rfl⟩)

theorem derives_no_operators (q : Precedence) :
    (Nonterminal.operators q).Derives [] fun e => e :=
  derives_operators.mpr (.inr (.inr ⟨rfl, rfl⟩))

theorem isSound_binary (q : Precedence) : (binary q).IsSound := by
  intro p w xs hp h
  simp only [productions, binaryProductions, List.mem_append, List.mem_cons, List.not_mem_nil,
    or_false] at hp
  rcases hp with (rfl | rfl) | hp
  · obtain ⟨u, e, _, _, rfl, rfl, he, h₁⟩ := h.exact (exact_operand q)
    obtain ⟨rfl, rfl⟩ := Reading.nil_iff.mp h₁
    exact ⟨.expression e, rfl, e,
      derives_joined.mpr ⟨u, e, [], _, rfl, he, derives_no_operators q, rfl⟩, rfl⟩
  · obtain ⟨u, l, _, _, rfl, rfl, hl, h₁⟩ := h.exact fun _ _ => id
    obtain ⟨_, x, _, _, rfl, rfl, ⟨-, op, ho, y, rfl, rfl⟩, h₂⟩ := Reading.rule_iff.mp h₁
    obtain ⟨v, e, _, _, rfl, rfl, he, h₃⟩ := Understood.exact (exact_operand q) h₂
    obtain ⟨rfl, rfl⟩ := Reading.nil_iff.mp h₃
    obtain ⟨u, l, t, k, rfl, hl', hk, rfl⟩ := derives_joined.mp hl
    have hop : (Nonterminal.operators q).Derives (⟨.mark op.mark, y⟩ :: (v ++ []))
        fun l => .binary op l e :=
      derives_operators.mpr
        (.inl ⟨op, ho, y, v, e, [], _, rfl, he, derives_no_operators q, rfl⟩)
    refine ⟨.expression (.binary op (k l) e), ?_, _, derives_joined.mpr
      ⟨u, l, _, _, List.append_assoc .., hl', operators_append hk hop, rfl⟩, rfl⟩
    exact Action.binaryExpression_eq op (k l) e
  · split at hp
    · obtain rfl := List.mem_singleton.mp hp
      obtain ⟨u, l, _, _, rfl, rfl, hl, h₁⟩ := h.exact fun _ _ => id
      obtain ⟨y, _, rfl, h₂⟩ := Reading.skip_iff.mp h₁
      obtain ⟨v, t, _, _, rfl, rfl, ht, h₃⟩ := Understood.exact (fun _ _ => id) h₂
      obtain ⟨rfl, rfl⟩ := Reading.nil_iff.mp h₃
      obtain ⟨u, l, t', k, rfl, hl', hk, rfl⟩ := derives_joined.mp hl
      have hop : (Nonterminal.operators q).Derives (⟨.keyword .instanceof, y⟩ :: (v ++ []))
          fun e => .instanceOf e t :=
        derives_operators.mpr
          (.inr (.inl ⟨‹_›, y, v, t, [], _, rfl, ht, derives_no_operators q, rfl⟩))
      exact ⟨.expression (.instanceOf (k l) t), rfl, _, derives_joined.mpr
        ⟨u, l, _, _, List.append_assoc .., hl', operators_append hk hop, rfl⟩, rfl⟩
    · cases hp

theorem isSound_conditionalExpression : conditionalExpression.IsSound := by
  intro p w xs hp h
  simp only [productions, List.mem_cons, List.not_mem_nil, or_false] at hp
  rcases hp with rfl | rfl
  · obtain ⟨u, e, _, _, rfl, rfl, he, h₁⟩ := h.exact fun _ _ => id
    obtain ⟨rfl, rfl⟩ := Reading.nil_iff.mp h₁
    exact ⟨.expression e, rfl, e, .intro (.head _)
      (.node he (.last (.intro (.tail _ (.head _)) (.nil _)) rfl)), rfl⟩
  · obtain ⟨u, c, _, _, rfl, rfl, hc, h₁⟩ := h.exact fun _ _ => id
    obtain ⟨y, _, rfl, h₂⟩ := Reading.skip_iff.mp h₁
    obtain ⟨u₁, t, _, _, rfl, rfl, ht, h₃⟩ := Understood.exact (fun _ _ => id) h₂
    obtain ⟨z, _, rfl, h₄⟩ := Reading.skip_iff.mp h₃
    obtain ⟨u₂, e, _, _, rfl, rfl, he, h₅⟩ := Understood.exact (fun _ _ => id) h₄
    obtain ⟨rfl, rfl⟩ := Reading.nil_iff.mp h₅
    rw [List.append_nil]
    have hk : Nonterminal.conditionalTail.Derives
        (⟨.mark .question, y⟩ :: (u₁ ++ ⟨.mark .colon, z⟩ :: u₂)) fun c => .conditional c t e :=
      .intro (.head _) (.skip (.node ht (.skip (.last he rfl))))
    exact ⟨.expression (.conditional c t e), rfl, _, .intro (.head _) (.node hc (.last hk rfl)),
      rfl⟩

theorem isSound_leftHandSide : leftHandSide.IsSound := by
  refine isSound_of_oneOf rfl rfl ?_
  simp only [List.mem_cons, List.not_mem_nil, or_false]
  rintro r' (rfl | rfl | rfl) w x h <;> exact h

theorem isSound_assignment : assignment.IsSound := by
  intro p w xs hp h
  obtain rfl := List.mem_singleton.mp hp
  obtain ⟨u, _, _, _, rfl, rfl, ⟨-, q, rfl, -, hq⟩, h₁⟩ := Reading.rule_iff.mp h
  obtain ⟨y, _, rfl, h₂⟩ := Reading.skip_iff.mp h₁
  obtain ⟨v, e, _, _, rfl, rfl, he, h₃⟩ := Understood.exact (fun _ _ => id) h₂
  obtain ⟨rfl, rfl⟩ := Reading.nil_iff.mp h₃
  rw [List.append_nil]
  exact ⟨.expression (.assign q e), rfl, .assign q e,
    hq (.intro (.head _) (.skip (.last he rfl))), rfl⟩

theorem isSound_expression : expression.IsSound := by
  refine isSound_of_oneOf rfl rfl ?_
  simp only [List.mem_cons, List.not_mem_nil, or_false]
  rintro r' (rfl | rfl) w x h
  · obtain ⟨e, he, rfl⟩ := h
    exact ⟨e, Nonterminal.expression_of_conditional he, rfl⟩
  · exact h

end Rule

end MemberAccess.Java.Ebnf
