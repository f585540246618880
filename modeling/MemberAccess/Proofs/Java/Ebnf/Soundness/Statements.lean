import MemberAccess.Proofs.Java.Ebnf.Soundness.Header
import MemberAccess.Proofs.Java.First

/-!
# Soundness: statements and methods

A statement is read as the links of a chain. If the branch of each `if` is in braces, the chain is
taken apart again as it was written.
-/

namespace MemberAccess.Java.Ebnf

open Nonterminal (derives_chain derives_chainEnd derives_after derives_opt_none derives_opt_some
  chainEnd_succ)

/-- A statement without a head means what is derived for it. -/
theorem MeansStatement.of_simple {w : List Lexeme} {s : Statement} (s' : Statement)
    (h : Nonterminal.simpleStatement.Derives w s') (hl : s'.links = [.simple s'])
    (hl' : s.links = [.simple s]) (hs : s.IsBraced) (he : Braced w → s' = s)
    (hw : ∃ l w', w = l :: w' ∧ (l.terminal = .mark .leftBrace → ∃ b, s = .block b)) :
    MeansStatement w (.statement (.statement s)) := by
  refine ⟨s, s', rfl, by rw [hl, hl']; rfl, ?_, hw, fun hb => ⟨he hb, hs⟩⟩
  intro k more v hv
  rw [hl]
  exact derives_chain.mpr (.inl ⟨w, s', more, v, rfl, h, hv, rfl⟩)

namespace Rule

/-- A throws clause names at least one type. -/
theorem ne_nil_of_throwsClause {w : List Lexeme} {cs : Option (List ClassType)}
    (h : (Nonterminal.opt .throwsClause).Derives w cs) : cs ≠ some [] := by
  rintro rfl
  have h := derives_opt_some.mp h
  rw [Nonterminal.derives_iff] at h
  simp only [Nonterminal.alternatives, List.mem_singleton, exists_eq_left,
    Grammar.readsBy_skip, Grammar.readsBy_node, Grammar.readsBy_last] at h
  obtain ⟨_, _, -, _, _, _, -, -, _, -, h⟩ := h
  cases h

theorem isSound_variableDeclarator : variableDeclarator.IsSound := by
  intro p w xs hp h
  obtain rfl := List.mem_singleton.mp hp
  obtain ⟨x, _, _, rfl, rfl, h₁⟩ := Reading.take_iff.mp h
  obtain ⟨u, k, _, _, rfl, rfl, hk, h₂⟩ := exact_opt_dims h₁
  rcases Reading.opt_iff.mp h₂ with h₃ | ⟨_, _, _, _, rfl, rfl, h₃, h₄⟩
  · obtain ⟨rfl, rfl⟩ := Reading.nil_iff.mp h₃
    refine ⟨.declarator ⟨x, k, none⟩, ?_, _, ?_, rfl⟩
    · rw [Production.item_of_rule rfl]
      exact Action.ofRule_variableDeclarator x k none
    · exact .intro (.head _) (.take (.node hk (.last (derives_opt_none.mpr rfl) rfl)))
  · obtain ⟨rfl, rfl⟩ := Reading.nil_iff.mp h₄
    obtain ⟨y, _, rfl, h₅⟩ := Reading.skip_iff.mp h₃
    obtain ⟨v, e, _, _, rfl, rfl, he, h₆⟩ := Understood.exact (fun _ _ => id) h₅
    obtain ⟨rfl, rfl⟩ := Reading.nil_iff.mp h₆
    simp only [List.append_nil]
    refine ⟨.declarator ⟨x, k, some e⟩, ?_, _, ?_, rfl⟩
    · rw [Production.item_of_rule rfl]
      exact Action.ofRule_variableDeclarator x k (some e)
    · exact .intro (.head _) (.take (.node hk
        (.last (derives_opt_some.mpr (derives_after.mpr ⟨y, v, rfl, he⟩)) rfl)))

theorem isSound_localVariableDeclaration : localVariableDeclaration.IsSound := by
  intro p w xs hp h
  obtain rfl := List.mem_singleton.mp hp
  obtain ⟨u, ms, _, _, rfl, rfl, hms, h₁⟩ := h.exact_many fun _ _ => id
  obtain ⟨u', t, _, _, rfl, rfl, ht, h₂⟩ := Understood.exact (fun _ _ => id) h₁
  obtain ⟨v, d, v', ds, _, _, rfl, rfl, hd, hds, h₃⟩ :=
    Understood.exact_separated (fun _ _ => id) h₂
  obtain ⟨rfl, rfl⟩ := Reading.nil_iff.mp h₃
  rw [List.append_nil, List.append_nil]
  refine ⟨.statement (.declaration ms t (d :: ds)), ?_, _, ?_, rfl⟩
  · rw [Production.item_of_rule rfl, Action.ofRule_localVariableDeclaration]
  · exact .intro (.head _) (.node hms (.node ht (.node hd (.last hds rfl))))

theorem isSound_block : block.IsSound := by
  intro p w xs hp h
  obtain rfl := List.mem_singleton.mp hp
  obtain ⟨y, _, rfl, h₁⟩ := Reading.skip_iff.mp h
  obtain ⟨u, ss, ss', _, _, rfl, rfl, hss, hb, h₂⟩ := Understood.agree_many (fun _ _ => id) h₁
  simp only [Reading.skip_iff, Reading.nil_iff] at h₂
  obtain ⟨z, _, rfl, rfl, rfl⟩ := h₂
  refine ⟨.ofBlock (.mk ss), ?_, .mk ss, .mk ss', ?_, rfl, ?_⟩
  · rw [Production.item_of_rule rfl, List.append_nil, Action.ofRule_block]
  · exact .intro (.head _) (.skip (.node hss (.skip (.nil _))))
  · intro h
    rw [hb h.tail.left]

theorem isSound_blockStatement : blockStatement.IsSound := by
  intro p w xs hp h
  simp only [productions, List.mem_cons, List.not_mem_nil, or_false] at hp
  rcases hp with rfl | rfl
  · obtain ⟨u, d, _, _, rfl, rfl, hd, h₁⟩ := h.exact fun _ _ => id
    simp only [Reading.skip_iff, Reading.nil_iff] at h₁
    obtain ⟨y, _, rfl, rfl, rfl⟩ := h₁
    exact ⟨.statement d, rfl, d, d, .intro (.head _) (.node hd (.skip (.nil _))), rfl, fun _ => rfl⟩
  · obtain ⟨u, _, _, _, rfl, rfl, ⟨-, s, s', rfl, -, hs, -, hb⟩, h₁⟩ := Reading.rule_iff.mp h
    obtain ⟨rfl, rfl⟩ := Reading.nil_iff.mp h₁
    have hchain := hs (derives_chainEnd.mpr (.inl ⟨rfl, rfl⟩) : (Nonterminal.chainEnd 0).Derives _ _)
    simp only [List.append_nil] at hchain
    refine ⟨.statement (.statement s), rfl, _, .statement s'.links.statement, ?_, rfl, ?_⟩
    · rw [List.append_nil]
      exact .intro (.tail _ (.head _)) (.last hchain rfl)
    · intro h
      obtain ⟨rfl, hs⟩ := hb h.left
      rw [Chain.statement_links hs]

theorem isSound_statement : statement.IsSound := by
  refine isSound_of_oneOf rfl rfl ?_
  simp only [List.mem_cons, List.not_mem_nil, or_false]
  rintro r' (rfl | rfl | rfl | rfl | rfl | rfl | rfl | rfl) w x h
  · obtain ⟨b, b', hb, rfl, he⟩ := h
    obtain ⟨l, w', rfl, -⟩ := firstTable.exists_cons_of_is hb.is rfl
    refine .of_simple (.block b') (.intro (.head _) (.last hb rfl)) rfl rfl trivial ?_
      ⟨l, w', rfl, fun _ => ⟨b, rfl⟩⟩
    intro h
    rw [he h]
  all_goals exact h

theorem isSound_ifStatement : ifStatement.IsSound := by
  intro p w xs hp h
  obtain rfl := List.mem_singleton.mp hp
  obtain ⟨y, _, rfl, h₁⟩ := Reading.skip_iff.mp h
  obtain ⟨y', _, rfl, h₂⟩ := Reading.skip_iff.mp h₁
  obtain ⟨u, _, _, _, rfl, rfl, ⟨⟨t, ht, -⟩, c, hc, rfl⟩, h₃⟩ := Reading.rule_iff.mp h₂
  obtain ⟨z, _, rfl, h₄⟩ := Reading.skip_iff.mp h₃
  obtain ⟨_, _, _, _, rfl, rfl, ⟨-, s, s', rfl, hn, hs, ⟨l, v, rfl, hl⟩, hb⟩, h₅⟩ :=
    Reading.rule_iff.mp h₄
  rcases Reading.opt_iff.mp h₅ with h₆ | ⟨_, _, _, _, rfl, rfl, h₆, h₇⟩
  · obtain ⟨rfl, rfl⟩ := Reading.nil_iff.mp h₆
    rw [List.append_nil]
    refine ⟨.statement (.statement (.ifThen c s)), rfl, .ifThen c s, .ifThen c s', rfl,
      congrArg Nat.succ hn, ?_, ⟨_, _, rfl, by simp⟩, ?_⟩
    · intro k more v' hv
      refine derives_chain.mpr (.inr (.inl ⟨y, y', u, c, z, _, _, ?_, hc, hs (chainEnd_succ hv),
        rfl⟩))
      simp
    · intro hw
      obtain ⟨rfl, -⟩ := hb hw.tail.tail.right.tail
      exact ⟨rfl, hl (hw [] u v y y' z l rfl ⟨t, ht⟩)⟩
  · obtain ⟨rfl, rfl⟩ := Reading.nil_iff.mp h₇
    obtain ⟨y'', _, rfl, h₈⟩ := Reading.skip_iff.mp h₆
    obtain ⟨v', _, _, _, rfl, rfl, ⟨-, q, q', rfl, hn', hq, -, hb'⟩, h₉⟩ := Reading.rule_iff.mp h₈
    obtain ⟨rfl, rfl⟩ := Reading.nil_iff.mp h₉
    simp only [List.append_nil]
    refine ⟨.statement (.statement (.ifThenElse c s q)), rfl, .ifThenElse c s q,
      .ifThenElse c s' q', rfl, by simp [Statement.links, hn, hn'], ?_, ⟨_, _, rfl, by simp⟩, ?_⟩
    · intro k more v'' hv
      have helse := hs (derives_chainEnd.mpr (.inr ⟨k, y'', _, _, rfl, rfl, hq hv, rfl⟩))
      refine derives_chain.mpr (.inr (.inl ⟨y, y', u, c, z, _, _, ?_, hc, helse, ?_⟩))
      · simp
      · simp [Statement.links]
    · intro hw
      obtain ⟨rfl, -⟩ := hb hw.tail.tail.right.tail.left
      obtain ⟨rfl, hq'⟩ := hb' hw.tail.tail.right.tail.right.tail
      exact ⟨rfl, hl (hw [] u _ y y' z l rfl ⟨t, ht⟩), hq'⟩

theorem isSound_whileStatement : whileStatement.IsSound := by
  intro p w xs hp h
  obtain rfl := List.mem_singleton.mp hp
  obtain ⟨y, _, rfl, h₁⟩ := Reading.skip_iff.mp h
  obtain ⟨y', _, rfl, h₂⟩ := Reading.skip_iff.mp h₁
  obtain ⟨u, c, _, _, rfl, rfl, hc, h₃⟩ := Understood.exact (fun _ _ => id) h₂
  obtain ⟨z, _, rfl, h₄⟩ := Reading.skip_iff.mp h₃
  obtain ⟨v, _, _, _, rfl, rfl, ⟨-, s, s', rfl, hn, hs, -, hb⟩, h₅⟩ := Reading.rule_iff.mp h₄
  obtain ⟨rfl, rfl⟩ := Reading.nil_iff.mp h₅
  rw [List.append_nil]
  refine ⟨.statement (.statement (.while_ c s)), rfl, .while_ c s, .while_ c s', rfl,
    congrArg Nat.succ hn, ?_, ⟨_, _, rfl, by simp⟩, ?_⟩
  · intro k more v' hv
    refine derives_chain.mpr (.inr (.inr ⟨y, y', u, c, z, _, _, ?_, hc, hs hv, rfl⟩))
    simp
  · intro h
    obtain ⟨rfl, hs⟩ := hb h.tail.tail.right.tail
    exact ⟨rfl, hs⟩

theorem isSound_returnStatement : returnStatement.IsSound := by
  intro p w xs hp h
  obtain rfl := List.mem_singleton.mp hp
  obtain ⟨y, _, rfl, h₁⟩ := Reading.skip_iff.mp h
  obtain ⟨u, e, _, _, rfl, rfl, he, h₂⟩ := Understood.exact_opt (fun _ _ => id) h₁
  simp only [Reading.skip_iff, Reading.nil_iff] at h₂
  obtain ⟨z, _, rfl, rfl, rfl⟩ := h₂
  refine ⟨.statement (.statement (.return_ e)), ?_, .of_simple (.return_ e)
    (.intro (.tail _ (.tail _ (.head _))) (.skip (.node he (.skip (.nil _))))) rfl rfl trivial
    (fun _ => rfl) ⟨_, _, rfl, by simp⟩⟩
  rw [Production.item_of_rule rfl, List.append_nil, Action.ofRule_returnStatement]

theorem isSound_throwStatement : throwStatement.IsSound := by
  intro p w xs hp h
  obtain rfl := List.mem_singleton.mp hp
  obtain ⟨y, _, rfl, h₁⟩ := Reading.skip_iff.mp h
  obtain ⟨u, e, _, _, rfl, rfl, he, h₂⟩ := Understood.exact (fun _ _ => id) h₁
  simp only [Reading.skip_iff, Reading.nil_iff] at h₂
  obtain ⟨z, _, rfl, rfl, rfl⟩ := h₂
  exact ⟨.statement (.statement (.throw_ e)), rfl, .of_simple (.throw_ e)
    (.intro (.tail _ (.tail _ (.tail _ (.head _)))) (.skip (.node he (.skip (.nil _))))) rfl rfl trivial
    (fun _ => rfl) ⟨_, _, rfl, by simp⟩⟩

theorem isSound_expressionStatement : expressionStatement.IsSound := by
  intro p w xs hp h
  obtain rfl := List.mem_singleton.mp hp
  obtain ⟨u, e, _, _, rfl, rfl, he, h₁⟩ := h.exact fun _ _ => id
  simp only [Reading.skip_iff, Reading.nil_iff] at h₁
  obtain ⟨z, _, rfl, rfl, rfl⟩ := h₁
  obtain ⟨l, u, rfl, hl⟩ := firstTable.exists_cons_of_is he.is rfl
  refine ⟨.statement (.statement (.expression e)), rfl, .of_simple (.expression e)
    (.intro (.tail _ (.tail _ (.tail _ (.tail _ (.head _))))) (.node he (.skip (.nil _)))) rfl rfl
    trivial (fun _ => rfl) ⟨l, _, rfl, fun h => ?_⟩⟩
  rw [h] at hl
  exact absurd hl (by decide)

theorem isSound_emptyStatement : emptyStatement.IsSound := by
  intro p w xs hp h
  obtain rfl := List.mem_singleton.mp hp
  simp only [Reading.skip_iff, Reading.nil_iff] at h
  obtain ⟨y, _, rfl, rfl, rfl⟩ := h
  exact ⟨.statement (.statement .empty), rfl, .of_simple .empty
    (.intro (.tail _ (.tail _ (.tail _ (.tail _ (.tail _ (.head _)))))) (.skip (.nil _))) rfl rfl
    trivial (fun _ => rfl) ⟨_, _, rfl, by simp⟩⟩

theorem isSound_finallyClause : finallyClause.IsSound := by
  intro p w xs hp h
  obtain rfl := List.mem_singleton.mp hp
  obtain ⟨y, _, rfl, h₁⟩ := Reading.skip_iff.mp h
  obtain ⟨u, b, b', _, _, rfl, rfl, hb, he, h₂⟩ := Understood.agree (fun _ _ => id) h₁
  obtain ⟨rfl, rfl⟩ := Reading.nil_iff.mp h₂
  rw [List.append_nil]
  exact ⟨.ofBlock b, rfl, b, b', derives_after.mpr ⟨y, u, rfl, hb⟩, rfl, fun h => he h.tail⟩

theorem isSound_tryStatement : tryStatement.IsSound := by
  intro p w xs hp h
  simp only [productions, List.mem_cons, List.not_mem_nil, or_false] at hp
  rcases hp with rfl | rfl
  · obtain ⟨y, _, rfl, h₁⟩ := Reading.skip_iff.mp h
    obtain ⟨u, b, b', _, _, rfl, rfl, hb, hbe, h₂⟩ := Understood.agree (fun _ _ => id) h₁
    obtain ⟨v, c, c', _, _, rfl, rfl, hc, hce, h₃⟩ := Understood.agree (fun _ _ => id) h₂
    obtain ⟨v₁, cs, cs', _, _, rfl, rfl, hcs, hcse, h₄⟩ := Understood.agree_many (fun _ _ => id) h₃
    obtain ⟨v₂, f, f', _, _, rfl, rfl, hf, hfe, h₅⟩ := Understood.agree_opt (fun _ _ => id) h₄
    obtain ⟨rfl, rfl⟩ := Reading.nil_iff.mp h₅
    simp only [List.append_nil]
    refine ⟨.statement (.statement (.try_ b (c :: cs) f)), ?_, .of_simple
      (.try_ b' (c' :: cs') f') ?_ rfl rfl trivial ?_ ⟨_, _, rfl, by simp⟩⟩
    · rw [Production.item_of_rule rfl]
      exact Action.ofRule_tryStatement b (c :: cs) f
    · have hk : Nonterminal.tryTail.Derives (v ++ (v₁ ++ v₂)) fun b => .try_ b (c' :: cs') f' :=
        .intro (.head _) (.node hc (.node hcs (.last hf rfl)))
      exact .intro (.tail _ (.head _)) (.skip (.node hb (.last hk rfl)))
    · intro h
      rw [hbe h.tail.left, hce h.tail.right.left, hcse h.tail.right.right.left,
        hfe h.tail.right.right.right]
  · obtain ⟨y, _, rfl, h₁⟩ := Reading.skip_iff.mp h
    obtain ⟨u, b, b', _, _, rfl, rfl, hb, hbe, h₂⟩ := Understood.agree (fun _ _ => id) h₁
    obtain ⟨v, f, f', _, _, rfl, rfl, hf, hfe, h₃⟩ := Understood.agree (fun _ _ => id) h₂
    obtain ⟨rfl, rfl⟩ := Reading.nil_iff.mp h₃
    rw [List.append_nil]
    refine ⟨.statement (.statement (.try_ b [] (some f))), rfl, .of_simple
      (.try_ b' [] (some f')) ?_ rfl rfl trivial ?_ ⟨_, _, rfl, by simp⟩⟩
    · obtain ⟨z, v, rfl, hf'⟩ := derives_after.mp hf
      have hk : Nonterminal.tryTail.Derives (⟨.keyword .finally_, z⟩ :: v)
          fun b => .try_ b [] (some f') :=
        .intro (.tail _ (.head _)) (.skip (.last hf' rfl))
      exact .intro (.tail _ (.head _)) (.skip (.node hb (.last hk rfl)))
    · intro h
      rw [hbe h.tail.left, hfe h.tail.right]

theorem isSound_catchClause : catchClause.IsSound := by
  intro p w xs hp h
  obtain rfl := List.mem_singleton.mp hp
  obtain ⟨y, _, rfl, h₁⟩ := Reading.skip_iff.mp h
  obtain ⟨y', _, rfl, h₂⟩ := Reading.skip_iff.mp h₁
  obtain ⟨u, ms, _, _, rfl, rfl, hms, h₃⟩ := Understood.exact_many (fun _ _ => id) h₂
  obtain ⟨u', ts, _, _, rfl, rfl, hts, h₄⟩ := Understood.exact (fun _ _ => id) h₃
  obtain ⟨x, _, _, rfl, rfl, h₅⟩ := Reading.take_iff.mp h₄
  obtain ⟨z, _, rfl, h₆⟩ := Reading.skip_iff.mp h₅
  obtain ⟨v, b, b', _, _, rfl, rfl, hb, he, h₇⟩ := Understood.agree (fun _ _ => id) h₆
  obtain ⟨rfl, rfl⟩ := Reading.nil_iff.mp h₇
  rw [List.append_nil]
  refine ⟨.catchClause (.mk ms ts x b), ?_, _, .mk ms ts x b', ?_, rfl, ?_⟩
  · rw [Production.item_of_rule rfl, Action.ofRule_catchClause]
  · exact .intro (.head _)
      (.skip (.skip (.node hms (.node hts (.take (.skip (.last hb rfl)))))))
  · intro h
    rw [he h.tail.tail.right.right.tail.tail]

theorem isSound_methodBody : methodBody.IsSound := by
  intro p w xs hp h
  simp only [productions, List.mem_cons, List.not_mem_nil, or_false] at hp
  rcases hp with rfl | rfl
  · obtain ⟨u, b, b', _, _, rfl, rfl, hb, he, h₁⟩ := h.agree fun _ _ => id
    obtain ⟨rfl, rfl⟩ := Reading.nil_iff.mp h₁
    rw [List.append_nil]
    refine ⟨.ofBlock b, rfl, some b, some b', .intro (.head _) (.last hb rfl), rfl, ?_⟩
    intro h
    rw [he h]
  · simp only [Reading.skip_iff, Reading.nil_iff] at h
    obtain ⟨y, _, rfl, rfl, rfl⟩ := h
    exact ⟨.absent, rfl, none, none, .intro (.tail _ (.head _)) (.skip (.nil _)), rfl, fun _ => rfl⟩

theorem isSound_methodDeclaration : methodDeclaration.IsSound := by
  intro p w xs hp h
  obtain rfl := List.mem_singleton.mp hp
  obtain ⟨u, ms, _, _, rfl, rfl, hms, h₁⟩ := h.exact_many fun _ _ => id
  obtain ⟨u₁, tps, _, _, rfl, rfl, htps, h₂⟩ := Understood.exact_opt (fun _ _ => id) h₁
  obtain ⟨u₂, t, _, _, rfl, rfl, ht, h₃⟩ := Understood.exact (fun _ _ => id) h₂
  obtain ⟨x, _, _, rfl, rfl, h₄⟩ := Reading.take_iff.mp h₃
  obtain ⟨u₃, ps, _, _, rfl, rfl, hps, h₅⟩ := Understood.exact (fun _ _ => id) h₄
  obtain ⟨u₄, cs, _, _, rfl, rfl, hcs, h₆⟩ := Understood.exact_opt (fun _ _ => id) h₅
  obtain ⟨u₅, b, b', _, _, rfl, rfl, hb, he, h₇⟩ := Understood.agree (fun _ _ => id) h₆
  obtain ⟨rfl, rfl⟩ := Reading.nil_iff.mp h₇
  rw [List.append_nil]
  refine ⟨.method ⟨ms, tps.getD [], t, x, ps, cs.getD [], b, none⟩, ?_, _,
    ⟨ms, tps.getD [], t, x, ps, cs.getD [], b', none⟩, ?_, rfl, ?_⟩
  · rw [Production.item_of_rule rfl]
    exact Action.ofRule_methodDeclaration ms tps t x ps cs b (ne_nil_of_throwsClause hcs)
  · exact .intro (.head _) (.node hms (.node htps (.node ht (.take (.node hps
      (.node hcs (.last hb rfl)))))))
  · intro h
    rw [he h.right.right.right.tail.right.right]

theorem isSound_start : start.IsSound := by
  intro p w xs hp h
  simp only [productions, oneOf, List.map_cons, List.map_nil, List.mem_singleton] at hp
  obtain rfl := hp
  obtain ⟨u, m, m', _, _, rfl, rfl, hm, he, h₁⟩ := h.agree fun _ _ => id
  obtain ⟨rfl, rfl⟩ := Reading.nil_iff.mp h₁
  rw [List.append_nil]
  exact ⟨.method m, rfl, m, m', hm, rfl, he⟩

end Rule

end MemberAccess.Java.Ebnf
