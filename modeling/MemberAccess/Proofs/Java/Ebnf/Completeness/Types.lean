import MemberAccess.Proofs.Java.Ebnf.Completeness.Written

/-!
# Completeness: types and headers

The published rules derive the types, modifiers and parameters of the grammar without left
recursion.
-/

namespace MemberAccess.Java.Ebnf

open Nonterminal

theorem isComplete_many (n : Nonterminal) : IsComplete (many n) := by
  intro a w v ha h
  simp only [alternatives, List.mem_cons, List.not_mem_nil, or_false] at ha
  rcases ha with rfl | rfl
  · simp only [Grammar.readsBy_node, Grammar.readsBy_last] at h
    obtain ⟨u, v, w', rfl, hu, vs, hw, rfl⟩ := h
    exact ⟨u, w', rfl, hu, hw⟩
  · obtain ⟨rfl, rfl⟩ := h
    exact rfl

theorem isComplete_opt (n : Nonterminal) : IsComplete (opt n) := by
  intro a w v ha h
  simp only [alternatives, List.mem_cons, List.not_mem_nil, or_false] at ha
  rcases ha with rfl | rfl
  · obtain ⟨v, hv, rfl⟩ := Grammar.readsBy_last.mp h
    exact hv
  · obtain ⟨rfl, rfl⟩ := h
    exact rfl

theorem isComplete_after (t : Terminal) (n : Nonterminal) : IsComplete (after t n) := by
  intro a w v ha h
  obtain rfl := List.mem_singleton.mp ha
  simp only [Grammar.readsBy_skip, Grammar.readsBy_last] at h
  obtain ⟨x, w', rfl, v, hv, rfl⟩ := h
  exact ⟨x, w', rfl, hv⟩

theorem isComplete_flag (t : Terminal) : IsComplete (flag t) := by
  intro a w v ha h
  simp only [alternatives, List.mem_cons, List.not_mem_nil, or_false] at ha
  rcases ha with rfl | rfl
  · simp only [Grammar.readsBy_skip, Grammar.readsBy_nil] at h
    obtain ⟨x, _, rfl, rfl, rfl⟩ := h
    exact .inl ⟨⟨x, rfl⟩, rfl⟩
  · obtain ⟨rfl, rfl⟩ := h
    exact .inr ⟨rfl, rfl⟩

theorem isComplete_primitive : IsComplete primitive := by
  intro a w v ha h
  obtain ⟨p, hp, rfl⟩ := List.mem_map.mp ha
  simp only [Grammar.readsBy_skip, Grammar.readsBy_nil] at h
  obtain ⟨x, _, rfl, rfl, rfl⟩ := h
  exact .of_rule (List.mem_map.mpr ⟨p, hp, rfl⟩) rfl (.take .nil) (Action.ofRule_primitiveType p x)

theorem isComplete_dimensions : IsComplete dimensions := by
  intro a w v ha h
  simp only [alternatives, dimensionsAlternatives, List.mem_cons, List.not_mem_nil, or_false] at ha
  rcases ha with rfl | rfl
  · simp only [Grammar.readsBy_skip, Grammar.readsBy_last] at h
    obtain ⟨x, _, rfl, y, w', rfl, k, hk, rfl⟩ := h
    exact ⟨x, y, w', rfl, hk⟩
  · obtain ⟨rfl, rfl⟩ := h
    exact rfl

theorem isComplete_type : IsComplete type := by
  intro a w v ha h
  simp only [alternatives, typeAlternatives, List.mem_cons, List.not_mem_nil, or_false] at ha
  rcases ha with rfl | rfl
  · simp only [Grammar.readsBy_node, Grammar.readsBy_last] at h
    obtain ⟨u, p, w', rfl, hp, k, hk, rfl⟩ := h
    have hr := Reading.rule hp (.opt_dims hk .nil)
    simp only [List.append_nil] at hr
    exact .of_rule (.head _) rfl hr (Action.ofRule_type_primitive p k)
  · simp only [Grammar.readsBy_node, Grammar.readsBy_last] at h
    obtain ⟨u, c, w', rfl, hc, k, hk, rfl⟩ := h
    have hr := Reading.rule hc (.opt_dims hk .nil)
    simp only [List.append_nil] at hr
    exact .of_rule (.tail _ (.head _)) rfl hr (Action.ofRule_type_reference c k)

theorem isComplete_classType : IsComplete classType := by
  intro a w v ha h
  obtain rfl := List.mem_singleton.mp ha
  simp only [Grammar.readsBy_node, Grammar.readsBy_last] at h
  obtain ⟨u, part, w', rfl, hpart, parts, hparts, rfl⟩ := h
  have hr := Reading.separated hpart hparts .nil
  simp only [List.append_nil] at hr
  exact .of_rule (.head _) rfl hr (Action.ofRule_classType (part :: parts))

theorem isComplete_classTypePart : IsComplete classTypePart := by
  intro a w v ha h
  obtain rfl := List.mem_singleton.mp ha
  simp only [Grammar.readsBy_take, Grammar.readsBy_last] at h
  obtain ⟨x, w', rfl, args, hargs, rfl⟩ := h
  have hr := Reading.take (t := .identifier) (x := x) (Reading.opt_of_perhaps hargs .nil)
  simp only [List.append_nil] at hr
  exact .of_rule (.head _) rfl hr (Action.ofRule_classTypePart x args)

theorem isComplete_typeArguments : IsComplete typeArguments := by
  intro a w v ha h
  obtain rfl := List.mem_singleton.mp ha
  simp only [Grammar.readsBy_skip, Grammar.readsBy_node, Grammar.readsBy_nil] at h
  obtain ⟨x, _, rfl, u, arg, _, rfl, harg, u', args, _, rfl, hargs, y, _, rfl, rfl, rfl⟩ := h
  have hr := Reading.skip (t := .mark .less) (x := x) (Reading.separated harg hargs
    (.skip (t := .mark .greater) (x := y) .nil))
  rw [List.append_nil] at hr
  exact .of_rule (.head _) rfl hr (Action.ofRule_typeArguments (arg :: args))

theorem image_of_wildcard {w : List Lexeme} {a : TypeArgument}
    (h : Rule.wildcard.Image w (.typeArgument a)) :
    Rule.typeArgument.Image w (.typeArgument a) := by
  have hr : Reading .token Rule.Image [.rule .wildcard] (w ++ []) [.typeArgument a] := .rule h .nil
  rw [List.append_nil] at hr
  exact .of_rule (.tail _ (.head _)) rfl hr rfl

theorem image_of_wildcardBound {k : Keyword} {x y : Text} {w : List Lexeme} {t : TypeExpr}
    {a : TypeArgument} (hp : ⟨[.take (.keyword k), .rule .type], none⟩ ∈ Rule.wildcardBound.productions)
    (ht : Rule.type.Image w (.ofTypeExpr t))
    (ha : Action.wildcard [.tuple [.text k.text, .ofTypeExpr t]] = some (.typeArgument a)) :
    Rule.typeArgument.Image (⟨.mark .question, x⟩ :: ⟨.keyword k, y⟩ :: w) (.typeArgument a) := by
  have hr : Reading .token Rule.Image [.take (.keyword k), .rule .type]
      (⟨.keyword k, y⟩ :: (w ++ [])) [.token ⟨.keyword k, y⟩, .ofTypeExpr t] :=
    .take (.rule ht .nil)
  rw [List.append_nil] at hr
  have hb : Rule.wildcardBound.Image (⟨.keyword k, y⟩ :: w)
      (.tuple [.text k.text, .ofTypeExpr t]) := .of_rule hp rfl hr rfl
  have hone := Reading.rule hb image_nil
  rw [List.append_nil] at hone
  have hall := Reading.skip (t := .mark .question) (x := x) (Reading.with_ hone .nil)
  simp only [List.append_nil] at hall
  exact image_of_wildcard (.of_rule (.head _) rfl hall ha)

theorem isComplete_typeArgument : IsComplete typeArgument := by
  intro a w v ha h
  simp only [alternatives, typeArgumentAlternatives, List.mem_cons, List.not_mem_nil, or_false]
    at ha
  rcases ha with rfl | rfl | rfl | rfl
  · obtain ⟨t, ht, rfl⟩ := Grammar.readsBy_last.mp h
    have hr := Reading.rule ht image_nil
    rw [List.append_nil] at hr
    exact .of_rule (.head _) rfl hr rfl
  · simp only [Grammar.readsBy_skip, Grammar.readsBy_nil] at h
    obtain ⟨x, _, rfl, rfl, rfl⟩ := h
    exact image_of_wildcard (.of_rule (.head _) rfl (.skip (.without .nil)) rfl)
  · simp only [Grammar.readsBy_skip, Grammar.readsBy_last] at h
    obtain ⟨x, _, rfl, y, w', rfl, t, ht, rfl⟩ := h
    exact image_of_wildcardBound (.head _) ht rfl
  · simp only [Grammar.readsBy_skip, Grammar.readsBy_last] at h
    obtain ⟨x, _, rfl, y, w', rfl, t, ht, rfl⟩ := h
    exact image_of_wildcardBound (.tail _ (.head _)) ht rfl

theorem isComplete_typeParameters : IsComplete typeParameters := by
  intro a w v ha h
  obtain rfl := List.mem_singleton.mp ha
  simp only [Grammar.readsBy_skip, Grammar.readsBy_node, Grammar.readsBy_nil] at h
  obtain ⟨x, _, rfl, u, q, _, rfl, hq, u', qs, _, rfl, hqs, y, _, rfl, rfl, rfl⟩ := h
  have hr := Reading.skip (t := .mark .less) (x := x) (Reading.separated hq hqs
    (.skip (t := .mark .greater) (x := y) .nil))
  rw [List.append_nil] at hr
  exact .of_rule (.head _) rfl hr (Action.ofRule_typeParameters (q :: qs))

theorem isComplete_typeParameter : IsComplete typeParameter := by
  intro a w v ha h
  obtain rfl := List.mem_singleton.mp ha
  simp only [Grammar.readsBy_take, Grammar.readsBy_last] at h
  obtain ⟨x, w', rfl, bs, hbs, rfl⟩ := h
  have hr := Reading.take (t := .identifier) (x := x) (Reading.opt_of_perhaps hbs .nil)
  simp only [List.append_nil] at hr
  exact .of_rule (.head _) rfl hr (Action.ofRule_typeParameter x bs)

theorem isComplete_bounds : IsComplete bounds := by
  intro a w v ha h
  obtain rfl := List.mem_singleton.mp ha
  simp only [Grammar.readsBy_skip, Grammar.readsBy_node, Grammar.readsBy_last] at h
  obtain ⟨x, _, rfl, u, c, w', rfl, hc, cs, hcs, rfl⟩ := h
  have hr := Reading.skip (t := .keyword .extends_) (x := x) (Reading.separated hc hcs .nil)
  simp only [List.append_nil] at hr
  exact .of_rule (.head _) rfl hr (Action.ofRule_typeBound (c :: cs))

theorem isComplete_throwsClause : IsComplete throwsClause := by
  intro a w v ha h
  obtain rfl := List.mem_singleton.mp ha
  simp only [Grammar.readsBy_skip, Grammar.readsBy_node, Grammar.readsBy_last] at h
  obtain ⟨x, _, rfl, u, c, w', rfl, hc, cs, hcs, rfl⟩ := h
  have hr := Reading.skip (t := .keyword .throws) (x := x) (Reading.separated hc hcs .nil)
  simp only [List.append_nil] at hr
  exact ⟨List.cons_ne_nil c cs, .of_rule (.head _) rfl hr (Action.ofRule_throwsClause (c :: cs))⟩

theorem isComplete_catchTypes : IsComplete catchTypes := by
  intro a w v ha h
  obtain rfl := List.mem_singleton.mp ha
  simp only [Grammar.readsBy_node, Grammar.readsBy_last] at h
  obtain ⟨u, c, w', rfl, hc, cs, hcs, rfl⟩ := h
  have hr := Reading.separated hc hcs .nil
  simp only [List.append_nil] at hr
  exact .of_rule (.head _) rfl hr (Action.ofRule_catchType (c :: cs))

end MemberAccess.Java.Ebnf
