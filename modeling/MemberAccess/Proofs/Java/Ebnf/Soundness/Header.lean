import MemberAccess.Proofs.Java.Ebnf.Soundness.Types

/-!
# Soundness: headers

Modifiers, results and parameters.
-/

namespace MemberAccess.Java.Ebnf

namespace Rule

theorem isSound_modifierKeyword : modifierKeyword.IsSound := by
  intro p w xs hp h
  simp only [productions, List.mem_map] at hp
  obtain ⟨k, hk, rfl⟩ := hp
  simp only [Reading.take_iff, Reading.nil_iff] at h
  obtain ⟨y, _, _, rfl, rfl, rfl, rfl⟩ := h
  refine ⟨.modifier (.keyword k), ?_, .keyword k, ?_, rfl⟩
  · rw [Production.item_of_rule rfl, Action.ofRule_modifierKeyword]
  · exact .intro (List.mem_append_left _ (List.mem_map.mpr ⟨k, hk, rfl⟩)) (.skip (.nil _))

theorem isSound_finalModifier : finalModifier.IsSound := by
  intro p w xs hp h
  obtain rfl := List.mem_singleton.mp hp
  simp only [Reading.take_iff, Reading.nil_iff] at h
  obtain ⟨y, _, _, rfl, rfl, rfl, rfl⟩ := h
  exact ⟨.modifier (.keyword .final), rfl, .keyword .final, .intro (.head _) (.skip (.nil _)), rfl⟩

theorem isSound_modifier : modifier.IsSound := by
  refine isSound_of_oneOf rfl rfl ?_
  simp only [List.mem_cons, List.not_mem_nil, or_false]
  rintro r' (rfl | rfl) w x h
  · exact h
  · obtain ⟨m, hm, rfl⟩ := h
    exact ⟨.marker m, .intro (List.mem_append_right _ (.head _)) (.last hm rfl), rfl⟩

theorem isSound_variableModifier : variableModifier.IsSound := by
  refine isSound_of_oneOf rfl rfl ?_
  simp only [List.mem_cons, List.not_mem_nil, or_false]
  rintro r' (rfl | rfl) w x h
  · exact h
  · obtain ⟨m, hm, rfl⟩ := h
    exact ⟨.marker m, .intro (.tail _ (.head _)) (.last hm rfl), rfl⟩

theorem isSound_atName : atName.IsSound := by
  intro p w xs hp h
  obtain rfl := List.mem_singleton.mp hp
  obtain ⟨y, w', rfl, h₁⟩ := Reading.skip_iff.mp h
  obtain ⟨u, x, _, _, rfl, rfl, hx, h₂⟩ := Understood.exact (fun _ _ => id) h₁
  obtain ⟨rfl, rfl⟩ := Reading.nil_iff.mp h₂
  rw [List.append_nil]
  exact ⟨.modifier (.marker x), rfl, x, .intro (.head _) (.skip (.last hx rfl)), rfl⟩

/-- Names after dots are the texts of their lexemes. -/
theorem exists_names {covers : Rule → List Lexeme → Item → Prop} {w : List Lexeme} {xs : List Item}
    (h : Repeats .token covers [mark .dot, .take .identifier] w xs) :
    ∃ names, (Nonterminal.many (.after (.mark .dot) .simpleName)).Derives w names ∧
      xs = names.map fun x => .token ⟨.identifier, x⟩ := by
  induction h with
  | nil => exact ⟨[], .nil, rfl⟩
  | cons hu _ ih =>
    simp only [Reading.skip_iff, Reading.take_iff, Reading.nil_iff] at hu
    obtain ⟨y, _, rfl, x, _, _, rfl, rfl, rfl, rfl⟩ := hu
    obtain ⟨names, hnames, rfl⟩ := ih
    have hx : Nonterminal.simpleName.Derives [⟨.identifier, x⟩] x :=
      .intro (.head _) (.take (.nil _))
    exact ⟨x :: names, .cons (Nonterminal.derives_after.mpr ⟨y, _, rfl, hx⟩) hnames, rfl⟩

theorem isSound_qualifiedName : qualifiedName.IsSound := by
  intro p w xs hp h
  obtain rfl := List.mem_singleton.mp hp
  simp only [Reading.take_iff, Reading.many_iff, Reading.nil_iff] at h
  obtain ⟨x, _, _, rfl, rfl, u, us, _, _, rfl, rfl, hu, rfl, rfl⟩ := h
  obtain ⟨names, hnames, rfl⟩ := exists_names hu
  rw [List.append_nil, List.append_nil]
  refine ⟨.text (Text.join "." (x :: names)), ?_, _, ?_, rfl⟩
  · rw [Production.item_of_rule rfl]
    exact Action.ofRule_qualifiedName (x :: names)
  · exact .intro (.head _) (.take (.last hnames rfl))

theorem isSound_result : result.IsSound := by
  intro p w xs hp h
  simp only [productions, List.mem_cons, List.not_mem_nil, or_false] at hp
  rcases hp with rfl | rfl
  · obtain ⟨u, t, _, _, rfl, rfl, ht, h₁⟩ := h.exact fun _ _ => id
    obtain ⟨rfl, rfl⟩ := Reading.nil_iff.mp h₁
    rw [List.append_nil]
    exact ⟨.type (.type t), rfl, .type t, .intro (.head _) (.last ht rfl), rfl⟩
  · simp only [Reading.take_iff, Reading.nil_iff] at h
    obtain ⟨y, _, _, rfl, rfl, rfl, rfl⟩ := h
    exact ⟨.type .void, rfl, .void, .intro (.tail _ (.head _)) (.skip (.nil _)), rfl⟩

theorem isSound_formalParameters : formalParameters.IsSound := by
  intro p w xs hp h
  obtain rfl := List.mem_singleton.mp hp
  obtain ⟨y, w', rfl, h₁⟩ := Reading.skip_iff.mp h
  rcases Reading.opt_iff.mp h₁ with h₂ | ⟨_, _, _, _, rfl, rfl, h₂, h₃⟩
  · simp only [Reading.skip_iff, Reading.nil_iff] at h₂
    obtain ⟨z, _, rfl, rfl, rfl⟩ := h₂
    exact ⟨.tuple [], rfl, [], .intro (.head _) (.skip (.skip (.nil _))), rfl⟩
  · obtain ⟨u, q, u', qs, _, _, rfl, rfl, hq, hqs, h₄⟩ :=
      Understood.exact_separated (fun _ _ => id) h₂
    obtain ⟨rfl, rfl⟩ := Reading.nil_iff.mp h₄
    simp only [Reading.skip_iff, Reading.nil_iff] at h₃
    obtain ⟨z, _, rfl, rfl, rfl⟩ := h₃
    rw [List.append_nil, List.append_nil, List.append_nil, List.append_assoc]
    refine ⟨.tuple ((q :: qs).map .formalParameter), ?_, q :: qs, ?_, rfl⟩
    · rw [Production.item_of_rule rfl, Action.ofRule_formalParameters]
    · exact .intro (.tail _ (.head _)) (.skip (.node hq (.node hqs (.skip (.nil _)))))

theorem isSound_formalParameter : formalParameter.IsSound := by
  intro p w xs hp h
  obtain rfl := List.mem_singleton.mp hp
  obtain ⟨u, ms, _, _, rfl, rfl, hms, h₁⟩ := h.exact_many fun _ _ => id
  obtain ⟨u', t, _, _, rfl, rfl, ht, h₂⟩ := Understood.exact (fun _ _ => id) h₁
  simp only [Reading.opt_iff, Reading.take_iff, Reading.nil_iff] at h₂
  rcases h₂ with ⟨x, _, _, rfl, rfl, rfl, rfl⟩ | ⟨_, _, _, _, rfl, rfl, ⟨y, _, _, rfl, rfl, rfl, rfl⟩,
    x, _, _, rfl, rfl, rfl, rfl⟩
  · refine ⟨.formalParameter ⟨ms, t, false, x⟩, ?_, _, ?_, rfl⟩
    · rw [Production.item_of_rule rfl]
      exact Action.ofRule_formalParameter ms t none x
    · exact .intro (.head _) (.node hms (.node ht (.node (u := [])
        (Nonterminal.derives_flag.mpr (.inr ⟨rfl, rfl⟩)) (.take (.nil _)))))
  · refine ⟨.formalParameter ⟨ms, t, true, x⟩, ?_, _, ?_, rfl⟩
    · rw [Production.item_of_rule rfl]
      exact Action.ofRule_formalParameter ms t (some y) x
    · exact .intro (.head _) (.node hms (.node ht (.node (u := [_])
        (Nonterminal.derives_flag.mpr (.inl ⟨⟨y, rfl⟩, rfl⟩)) (.take (.nil _)))))

end Rule

end MemberAccess.Java.Ebnf
