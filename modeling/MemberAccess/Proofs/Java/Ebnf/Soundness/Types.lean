import MemberAccess.Proofs.Java.Ebnf.Meaning

/-!
# Soundness: types

What the rules of types leave in the tree is the value that the nonterminal derives.
-/

namespace MemberAccess.Java.Ebnf

open Nonterminal (Derives.intro)

namespace Rule

theorem isSound_dim : dim.IsSound := by
  intro p w xs hp h
  obtain rfl := List.mem_singleton.mp hp
  simp only [Reading.skip_iff, Reading.nil_iff] at h
  obtain ⟨y, _, rfl, z, _, rfl, rfl, rfl⟩ := h
  exact ⟨.number 1, rfl, y, z, rfl, rfl⟩

theorem exists_dimensions {w : List Lexeme} {xs : List Item}
    (h : Repeats .token (fun r w x => r.Image w x ∧ Means r w x) [.rule dim] w xs) :
    ∃ k : Nat, Nonterminal.dimensions.Derives w k ∧ xs = (List.replicate k 1).map .number := by
  induction h with
  | nil => exact ⟨0, Nonterminal.derives_dimensions_zero.mpr rfl, rfl⟩
  | cons hu _ ih =>
    simp only [Reading.rule_iff, Reading.nil_iff] at hu
    obtain ⟨u, x, _, _, rfl, rfl, ⟨-, y, z, rfl, rfl⟩, rfl, rfl⟩ := hu
    obtain ⟨k, hk, rfl⟩ := ih
    exact ⟨k + 1, Nonterminal.derives_dimensions_succ.mpr ⟨y, z, _, rfl, hk⟩, rfl⟩

theorem isSound_dims : dims.IsSound := by
  intro p w xs hp h
  obtain rfl := List.mem_singleton.mp hp
  simp only [Reading.rule_iff, Reading.many_iff, Reading.nil_iff] at h
  obtain ⟨_, _, _, _, rfl, rfl, ⟨-, y, z, rfl, rfl⟩, u, us, _, _, rfl, rfl, hu, rfl, rfl⟩ := h
  obtain ⟨k, hk, rfl⟩ := exists_dimensions hu
  rw [List.append_nil, List.append_nil]
  refine ⟨.number (k + 1), ?_, k, ?_, rfl⟩
  · rw [Production.item_of_rule rfl]
    exact Action.ofRule_dims (k + 1)
  · exact Nonterminal.derives_dimensions_succ.mpr ⟨y, z, _, rfl, hk⟩

theorem isSound_primitiveType : primitiveType.IsSound := by
  intro p w xs hp h
  simp only [productions, List.mem_map] at hp
  obtain ⟨q, hq, rfl⟩ := hp
  simp only [Reading.take_iff, Reading.nil_iff] at h
  obtain ⟨y, _, _, rfl, rfl, rfl, rfl⟩ := h
  refine ⟨.ofTypeExpr (.primitive q 0), ?_, q, ?_, rfl⟩
  · rw [Production.item_of_rule rfl, Action.ofRule_primitiveType]
  · exact .intro (List.mem_map.mpr ⟨q, hq, rfl⟩) (.skip (.nil _))

/-- Dimensions that may be left out are a number of them. -/
theorem exact_opt_dims {ps : List Part} {w : List Lexeme} {xs : List Item}
    (h : Understood (.opt [.rule dims] :: ps) w xs) :
    ∃ u, ∃ k : Nat, ∃ w' xs', w = u ++ w' ∧ xs = Item.ofDimensions k ++ xs' ∧
      Nonterminal.dimensions.Derives u k ∧ Understood ps w' xs' := by
  rcases Reading.opt_iff.mp h with h₁ | ⟨_, _, w', xs', rfl, rfl, h₁, h₂⟩
  · exact ⟨[], 0, w, xs, rfl, rfl, Nonterminal.derives_dimensions_zero.mpr rfl, h₁⟩
  · simp only [Reading.rule_iff, Reading.nil_iff] at h₁
    obtain ⟨u, _, _, _, rfl, rfl, ⟨-, k, hk, rfl⟩, rfl, rfl⟩ := h₁
    exact ⟨u, k + 1, w', xs', by simp, rfl, hk, h₂⟩

theorem isSound_type : type.IsSound := by
  intro p w xs hp h
  simp only [productions, List.mem_cons, List.not_mem_nil, or_false] at hp
  rcases hp with rfl | rfl
  · obtain ⟨u, q, _, _, rfl, rfl, hq, h₁⟩ := h.exact fun _ _ => id
    obtain ⟨u', k, _, _, rfl, rfl, hk, h₂⟩ := exact_opt_dims h₁
    obtain ⟨rfl, rfl⟩ := Reading.nil_iff.mp h₂
    rw [List.append_nil, List.append_nil]
    refine ⟨.ofTypeExpr (.primitive q k), ?_, .primitive q k, ?_, rfl⟩
    · rw [Production.item_of_rule rfl, Action.ofRule_type_primitive]
    · exact .intro (.head _) (.node hq (.last hk rfl))
  · obtain ⟨u, c, _, _, rfl, rfl, hc, h₁⟩ := h.exact fun _ _ => id
    obtain ⟨u', k, _, _, rfl, rfl, hk, h₂⟩ := exact_opt_dims h₁
    obtain ⟨rfl, rfl⟩ := Reading.nil_iff.mp h₂
    rw [List.append_nil, List.append_nil]
    refine ⟨.ofTypeExpr (.reference c k), ?_, .reference c k, ?_, rfl⟩
    · rw [Production.item_of_rule rfl, Action.ofRule_type_reference]
    · exact .intro (.tail _ (.head _)) (.node hc (.last hk rfl))

theorem isSound_classType : classType.IsSound := by
  intro p w xs hp h
  obtain rfl := List.mem_singleton.mp hp
  obtain ⟨u, v, u', vs, _, _, rfl, rfl, hv, hvs, h₁⟩ := h.exact_separated fun _ _ => id
  obtain ⟨rfl, rfl⟩ := Reading.nil_iff.mp h₁
  rw [List.append_nil, List.append_nil]
  refine ⟨.ofClassType (.ofParts (v :: vs)), ?_, .ofParts (v :: vs), ?_, rfl⟩
  · rw [Production.item_of_rule rfl, Action.ofRule_classType]
  · exact .intro (.head _) (.node hv (.last hvs rfl))

theorem isSound_classTypePart : classTypePart.IsSound := by
  intro p w xs hp h
  obtain rfl := List.mem_singleton.mp hp
  obtain ⟨x, w', xs', rfl, rfl, h₁⟩ := Reading.take_iff.mp h
  obtain ⟨u, args, _, _, rfl, rfl, hu, h₂⟩ := Understood.exact_opt (fun _ _ => id) h₁
  obtain ⟨rfl, rfl⟩ := Reading.nil_iff.mp h₂
  rw [List.append_nil, List.append_nil]
  refine ⟨.ofClassTypePart (x, args.getD []), ?_, (x, args.getD []), ?_, rfl⟩
  · rw [Production.item_of_rule rfl, Action.ofRule_classTypePart]
  · exact .intro (.head _) (.take (.last hu rfl))

theorem isSound_typeArguments : typeArguments.IsSound := by
  intro p w xs hp h
  obtain rfl := List.mem_singleton.mp hp
  obtain ⟨y, w', rfl, h₁⟩ := Reading.skip_iff.mp h
  obtain ⟨u, a, u', as, _, _, rfl, rfl, ha, has, h₂⟩ :=
    Understood.exact_separated (fun _ _ => id) h₁
  obtain ⟨z, _, rfl, h₃⟩ := Reading.skip_iff.mp h₂
  obtain ⟨rfl, rfl⟩ := Reading.nil_iff.mp h₃
  refine ⟨.tuple ((a :: as).map .typeArgument), ?_, a :: as, ?_, rfl⟩
  · rw [Production.item_of_rule rfl, List.append_nil, Action.ofRule_typeArguments]
  · exact .intro (.head _) (.skip (.node ha (.node has (.skip (.nil _)))))

theorem isSound_typeArgument : typeArgument.IsSound := by
  intro p w xs hp h
  simp only [productions, oneOf, List.map_cons, List.map_nil, List.mem_cons, List.not_mem_nil,
    or_false] at hp
  rcases hp with rfl | rfl
  · obtain ⟨u, t, _, _, rfl, rfl, ht, h₁⟩ := h.exact fun _ _ => id
    obtain ⟨rfl, rfl⟩ := Reading.nil_iff.mp h₁
    rw [List.append_nil]
    exact ⟨.typeArgument (.type t), rfl, .type t, .intro (.head _) (.last ht rfl), rfl⟩
  · obtain ⟨u, a, _, _, rfl, rfl, ha, h₁⟩ := h.exact fun _ _ => id
    obtain ⟨rfl, rfl⟩ := Reading.nil_iff.mp h₁
    rw [List.append_nil]
    exact ⟨.typeArgument a, rfl, a, ha, rfl⟩

theorem isSound_wildcard : wildcard.IsSound := by
  intro p w xs hp h
  obtain rfl := List.mem_singleton.mp hp
  simp only [Reading.skip_iff, Reading.opt_iff, Reading.rule_iff, Reading.nil_iff] at h
  obtain ⟨y, _, rfl, ⟨rfl, rfl⟩ | ⟨_, _, _, _, rfl, rfl, ⟨_, _, _, _, rfl, rfl, ⟨-, k, z, u, t, hk,
    rfl, ht, rfl⟩, rfl, rfl⟩, rfl, rfl⟩⟩ := h
  · exact ⟨.typeArgument .any, rfl, .any, .intro (.tail _ (.head _)) (.skip (.nil _)), rfl⟩
  · simp only [List.append_nil]
    rcases hk with rfl | rfl
    · exact ⟨.typeArgument (.extending t), rfl, .extending t,
        .intro (.tail _ (.tail _ (.head _))) (.skip (.skip (.last ht rfl))), rfl⟩
    · exact ⟨.typeArgument (.superOf t), rfl, .superOf t,
        .intro (.tail _ (.tail _ (.tail _ (.head _)))) (.skip (.skip (.last ht rfl))), rfl⟩

theorem isSound_wildcardBound : wildcardBound.IsSound := by
  intro p w xs hp h
  simp only [productions, List.mem_cons, List.not_mem_nil, or_false] at hp
  rcases hp with rfl | rfl
  · obtain ⟨y, _, _, rfl, rfl, h₁⟩ := Reading.take_iff.mp h
    obtain ⟨u, t, _, _, rfl, rfl, ht, h₂⟩ := Understood.exact (fun _ _ => id) h₁
    obtain ⟨rfl, rfl⟩ := Reading.nil_iff.mp h₂
    rw [List.append_nil]
    exact ⟨_, rfl, .extends_, y, u, t, .inl rfl, rfl, ht, rfl⟩
  · obtain ⟨y, _, _, rfl, rfl, h₁⟩ := Reading.take_iff.mp h
    obtain ⟨u, t, _, _, rfl, rfl, ht, h₂⟩ := Understood.exact (fun _ _ => id) h₁
    obtain ⟨rfl, rfl⟩ := Reading.nil_iff.mp h₂
    rw [List.append_nil]
    exact ⟨_, rfl, .super, y, u, t, .inr rfl, rfl, ht, rfl⟩

theorem isSound_throwsClause : throwsClause.IsSound := by
  intro p w xs hp h
  obtain rfl := List.mem_singleton.mp hp
  obtain ⟨y, w', rfl, h₁⟩ := Reading.skip_iff.mp h
  obtain ⟨u, c, u', cs, _, _, rfl, rfl, hc, hcs, h₂⟩ :=
    Understood.exact_separated (fun _ _ => id) h₁
  obtain ⟨rfl, rfl⟩ := Reading.nil_iff.mp h₂
  rw [List.append_nil, List.append_nil]
  refine ⟨.ofClassTypes (c :: cs), ?_, c :: cs, ?_, rfl⟩
  · rw [Production.item_of_rule rfl, Action.ofRule_throwsClause]
  · exact .intro (.head _) (.skip (.node hc (.last hcs rfl)))

theorem isSound_typeBound : typeBound.IsSound := by
  intro p w xs hp h
  obtain rfl := List.mem_singleton.mp hp
  obtain ⟨y, w', rfl, h₁⟩ := Reading.skip_iff.mp h
  obtain ⟨u, c, u', cs, _, _, rfl, rfl, hc, hcs, h₂⟩ :=
    Understood.exact_separated (fun _ _ => id) h₁
  obtain ⟨rfl, rfl⟩ := Reading.nil_iff.mp h₂
  rw [List.append_nil, List.append_nil]
  refine ⟨.ofClassTypes (c :: cs), ?_, c :: cs, ?_, rfl⟩
  · rw [Production.item_of_rule rfl, Action.ofRule_typeBound]
  · exact .intro (.head _) (.skip (.node hc (.last hcs rfl)))

theorem isSound_catchType : catchType.IsSound := by
  intro p w xs hp h
  obtain rfl := List.mem_singleton.mp hp
  obtain ⟨u, c, u', cs, _, _, rfl, rfl, hc, hcs, h₁⟩ := h.exact_separated fun _ _ => id
  obtain ⟨rfl, rfl⟩ := Reading.nil_iff.mp h₁
  rw [List.append_nil, List.append_nil]
  refine ⟨.ofClassTypes (c :: cs), ?_, c :: cs, ?_, rfl⟩
  · rw [Production.item_of_rule rfl, Action.ofRule_catchType]
  · exact .intro (.head _) (.node hc (.last hcs rfl))

theorem isSound_typeParameters : typeParameters.IsSound := by
  intro p w xs hp h
  obtain rfl := List.mem_singleton.mp hp
  obtain ⟨y, w', rfl, h₁⟩ := Reading.skip_iff.mp h
  obtain ⟨u, q, u', qs, _, _, rfl, rfl, hq, hqs, h₂⟩ :=
    Understood.exact_separated (fun _ _ => id) h₁
  obtain ⟨z, _, rfl, h₃⟩ := Reading.skip_iff.mp h₂
  obtain ⟨rfl, rfl⟩ := Reading.nil_iff.mp h₃
  refine ⟨.tuple ((q :: qs).map .typeParameter), ?_, q :: qs, ?_, rfl⟩
  · rw [Production.item_of_rule rfl, List.append_nil, Action.ofRule_typeParameters]
  · exact .intro (.head _) (.skip (.node hq (.node hqs (.skip (.nil _)))))

theorem isSound_typeParameter : typeParameter.IsSound := by
  intro p w xs hp h
  obtain rfl := List.mem_singleton.mp hp
  obtain ⟨x, w', xs', rfl, rfl, h₁⟩ := Reading.take_iff.mp h
  obtain ⟨u, bs, _, _, rfl, rfl, hu, h₂⟩ := Understood.exact_opt (fun _ _ => id) h₁
  obtain ⟨rfl, rfl⟩ := Reading.nil_iff.mp h₂
  rw [List.append_nil, List.append_nil]
  refine ⟨.typeParameter ⟨x, bs.getD []⟩, ?_, ⟨x, bs.getD []⟩, ?_, rfl⟩
  · rw [Production.item_of_rule rfl, Action.ofRule_typeParameter]
  · exact .intro (.head _) (.take (.last hu rfl))

end Rule

end MemberAccess.Java.Ebnf
