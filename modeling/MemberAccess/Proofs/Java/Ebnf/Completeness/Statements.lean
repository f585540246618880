import MemberAccess.Proofs.Java.Chain
import MemberAccess.Proofs.Java.Ebnf.Completeness.Written

/-!
# Completeness: statements and methods

The links of a chain are statements again. The head of an `if` has no `else` only if the links
after it cannot be split at one, and then they close without an open `if`.
-/

namespace MemberAccess.Java.Ebnf

open Nonterminal

theorem isComplete_simpleName : IsComplete simpleName := by
  intro a w v ha h
  obtain rfl := List.mem_singleton.mp ha
  simp only [Grammar.readsBy_take, Grammar.readsBy_nil] at h
  obtain ⟨x, _, rfl, rfl, rfl⟩ := h
  exact rfl

theorem Reading.many_names {w : List Lexeme} {names : List Text}
    (h : IsWritten (many (after (.mark .dot) simpleName)) w names) :
    Reading .token Rule.Image [.many [.skip (.mark .dot), .take .identifier]] w
      (names.map fun x => .token ⟨.identifier, x⟩) := by
  induction names generalizing w with
  | nil =>
    obtain rfl := h
    exact .stop .nil
  | cons x names ih =>
    obtain ⟨_, w, rfl, ⟨d, _, rfl, rfl⟩, h⟩ := h
    have hone := Reading.skip (t := .mark .dot) (x := d)
      (.take (t := .identifier) (x := x) image_nil)
    exact Reading.more hone (ih h)

theorem isComplete_name : IsComplete name := by
  intro a w v ha h
  obtain rfl := List.mem_singleton.mp ha
  simp only [Grammar.readsBy_take, Grammar.readsBy_last] at h
  obtain ⟨x, w, rfl, names, hnames, rfl⟩ := h
  exact .of_rule (.head _) rfl (.take (.many_names hnames))
    (Action.ofRule_qualifiedName (x :: names))

theorem isComplete_marker : IsComplete marker := by
  intro a w v ha h
  obtain rfl := List.mem_singleton.mp ha
  simp only [Grammar.readsBy_skip, Grammar.readsBy_last] at h
  obtain ⟨x, w, rfl, name, hname, rfl⟩ := h
  have hr := Reading.skip (t := .mark .at_) (x := x) (Reading.rule hname image_nil)
  rw [List.append_nil] at hr
  exact .of_rule (.head _) rfl hr rfl

theorem isComplete_modifier : IsComplete modifier := by
  intro a w v ha h
  simp only [alternatives, List.mem_append, List.mem_map, List.mem_singleton] at ha
  rcases ha with ⟨k, hk, rfl⟩ | rfl
  · simp only [Grammar.readsBy_skip, Grammar.readsBy_nil] at h
    obtain ⟨x, _, rfl, rfl, rfl⟩ := h
    exact .choose (.head _) rfl (.of_rule (r := .modifierKeyword) (List.mem_map.mpr ⟨k, hk, rfl⟩) rfl
      (.take .nil) (Action.ofRule_modifierKeyword k x))
  · obtain ⟨m, hm, rfl⟩ := Grammar.readsBy_last.mp h
    exact .choose (.tail _ (.head _)) rfl hm

theorem isComplete_variableModifier : IsComplete variableModifier := by
  intro a w v ha h
  simp only [alternatives, List.mem_cons, List.not_mem_nil, or_false] at ha
  rcases ha with rfl | rfl
  · simp only [Grammar.readsBy_skip, Grammar.readsBy_nil] at h
    obtain ⟨x, _, rfl, rfl, rfl⟩ := h
    exact .choose (.head _) rfl (.of_rule (r := .finalModifier) (.head _) rfl (.take .nil) rfl)
  · obtain ⟨m, hm, rfl⟩ := Grammar.readsBy_last.mp h
    exact .choose (.tail _ (.head _)) rfl hm

theorem isComplete_result : IsComplete result := by
  intro a w v ha h
  simp only [alternatives, List.mem_cons, List.not_mem_nil, or_false] at ha
  rcases ha with rfl | rfl
  · obtain ⟨t, ht, rfl⟩ := Grammar.readsBy_last.mp h
    have hr := Reading.rule ht image_nil
    rw [List.append_nil] at hr
    exact .of_rule (.head _) rfl hr rfl
  · simp only [Grammar.readsBy_skip, Grammar.readsBy_nil] at h
    obtain ⟨x, _, rfl, rfl, rfl⟩ := h
    exact .of_rule (.tail _ (.head _)) rfl (.take .nil) rfl

theorem isComplete_formalParameter : IsComplete formalParameter := by
  intro a w v ha h
  obtain rfl := List.mem_singleton.mp ha
  simp only [Grammar.readsBy_take, Grammar.readsBy_node, Grammar.readsBy_nil] at h
  obtain ⟨u, ms, _, rfl, hms, u', t, _, rfl, ht, u'', b, _, rfl, hb, x, _, rfl, rfl, rfl⟩ := h
  rcases hb with ⟨⟨y, rfl⟩, rfl⟩ | ⟨rfl, rfl⟩
  · have hone := Reading.take (t := .mark .ellipsis) (x := y) image_nil
    have hr := Reading.many_of_each hms (Reading.rule ht (Reading.with_ hone
      (.take (t := .identifier) (x := x) image_nil)))
    exact .of_rule (.head _) rfl hr (Action.ofRule_formalParameter ms t (some y) x)
  · exact .of_rule (.head _) rfl (.many_of_each hms (.rule ht (.without (.take .nil))))
      (Action.ofRule_formalParameter ms t none x)

theorem isComplete_formalParameters : IsComplete formalParameters := by
  intro a w v ha h
  simp only [alternatives, formalParametersAlternatives, List.mem_cons, List.not_mem_nil, or_false]
    at ha
  rcases ha with rfl | rfl
  · simp only [Grammar.readsBy_skip, Grammar.readsBy_nil] at h
    obtain ⟨x, _, rfl, y, _, rfl, rfl, rfl⟩ := h
    exact .of_rule (.head _) rfl (.skip (.without (.skip .nil))) rfl
  · simp only [Grammar.readsBy_skip, Grammar.readsBy_node, Grammar.readsBy_nil] at h
    obtain ⟨x, _, rfl, u, p, _, rfl, hp, u', ps, _, rfl, hps, y, _, rfl, rfl, rfl⟩ := h
    have hone := Reading.separated hp hps .nil
    have hr := Reading.skip (t := .mark .leftParenthesis) (x := x) (Reading.with_ hone
      (.skip (t := .mark .rightParenthesis) (x := y) image_nil))
    simp only [List.append_nil, List.append_assoc] at hr
    exact .of_rule (.head _) rfl hr (Action.ofRule_formalParameters (p :: ps))

theorem Links.of_append {w : List Lexeme} {links rest : Chain} (h : Links w (links ++ rest)) :
    ∃ u t, w = u ++ t ∧ Links u links ∧ Links t rest := by
  induction links generalizing w with
  | nil => exact ⟨[], w, rfl, rfl, h⟩
  | cons link links ih =>
    cases link with
    | ifHead c | whileHead c =>
      obtain ⟨x, y, v, z, t, rfl, hv, h⟩ := h
      obtain ⟨u, t, rfl, hu, ht⟩ := ih h
      exact ⟨_ :: _ :: (v ++ _ :: u), t, by simp, ⟨x, y, v, z, u, rfl, hv, hu⟩, ht⟩
    | simple s =>
      obtain ⟨v, t, rfl, hv, h⟩ := h
      obtain ⟨u, t, rfl, hu, ht⟩ := ih h
      exact ⟨v ++ u, t, by simp, ⟨v, u, rfl, hv, hu⟩, ht⟩
    | elseWord =>
      obtain ⟨x, t, rfl, h⟩ := h
      obtain ⟨u, t, rfl, hu, ht⟩ := ih h
      exact ⟨_ :: u, t, rfl, ⟨x, u, rfl, hu⟩, ht⟩

theorem image_ifThen {u t : List Lexeme} {x y z : Text} {c : Expr} {s : Statement}
    (hu : Rule.expression.Image u (.expression c))
    (ht : Rule.statement.Image t (.statement (.statement s))) :
    Rule.statement.Image (⟨.keyword .if_, x⟩ :: ⟨.mark .leftParenthesis, y⟩ ::
      (u ++ ⟨.mark .rightParenthesis, z⟩ :: t)) (.statement (.statement (.ifThen c s))) := by
  have hif : Rule.ifStatement.Image (⟨.keyword .if_, x⟩ :: ⟨.mark .leftParenthesis, y⟩ ::
      (u ++ ⟨.mark .rightParenthesis, z⟩ :: (t ++ []))) (.statement (.statement (.ifThen c s))) :=
    .of_rule (.head _) rfl (.skip (.skip (.rule hu (.skip (.rule ht (.without .nil)))))) rfl
  rw [List.append_nil] at hif
  exact .choose (.tail _ (.head _)) rfl hif

theorem image_ifThenElse {u t v : List Lexeme} {x y z k : Text} {c : Expr} {s s' : Statement}
    (hu : Rule.expression.Image u (.expression c))
    (ht : Rule.statement.Image t (.statement (.statement s)))
    (hv : Rule.statement.Image v (.statement (.statement s'))) :
    Rule.statement.Image (⟨.keyword .if_, x⟩ :: ⟨.mark .leftParenthesis, y⟩ ::
      (u ++ ⟨.mark .rightParenthesis, z⟩ :: (t ++ ⟨.keyword .else_, k⟩ :: v)))
      (.statement (.statement (.ifThenElse c s s'))) := by
  have hone := Reading.skip (t := .keyword .else_) (x := k) (.rule hv image_nil)
  have hr := Reading.skip (t := .keyword .if_) (x := x) (.skip (t := .mark .leftParenthesis) (x := y)
    (.rule hu (.skip (t := .mark .rightParenthesis) (x := z) (.rule ht (.with_ hone image_nil)))))
  simp only [List.append_nil] at hr
  exact .choose (.tail _ (.head _)) rfl (.of_rule (r := .ifStatement) (.head _) rfl hr rfl)

theorem image_while {u t : List Lexeme} {x y z : Text} {c : Expr} {s : Statement}
    (hu : Rule.expression.Image u (.expression c))
    (ht : Rule.statement.Image t (.statement (.statement s))) :
    Rule.statement.Image (⟨.keyword .while_, x⟩ :: ⟨.mark .leftParenthesis, y⟩ ::
      (u ++ ⟨.mark .rightParenthesis, z⟩ :: t)) (.statement (.statement (.while_ c s))) := by
  have hr := Reading.skip (t := .keyword .while_) (x := x)
    (.skip (t := .mark .leftParenthesis) (x := y)
      (.rule hu (.skip (t := .mark .rightParenthesis) (x := z) (.rule ht image_nil))))
  rw [List.append_nil] at hr
  exact .choose (.tail _ (.tail _ (.head _))) rfl
    (.of_rule (r := .whileStatement) (.head _) rfl hr rfl)

/-- Links that close are the statement that they are taken for. -/
theorem image_statementOfSize {n : Nat} {w : List Lexeme} {links : Chain}
    (hn : links.length ≤ n) (hc : Chain.closes 0 links) (h : Links w links) :
    Rule.statement.Image w (.statement (.statement (Chain.statementOfSize n links))) := by
  induction n generalizing w links with
  | zero =>
    obtain rfl := List.length_eq_zero_iff.mp (Nat.le_zero.mp hn)
    cases hc
  | succ n ih =>
    match links, hc, h with
    | .ifHead c :: rest, hc, h =>
      obtain ⟨x, y, u, z, t, rfl, hu, h⟩ := h
      rw [List.length_cons] at hn
      rw [Chain.statementOfSize]
      split
      · rename_i a b hs
        obtain ⟨rfl, ha, hb⟩ := Chain.lastSplit?_eq_some hs
        rw [List.length_append, List.length_cons] at hn
        obtain ⟨t, v, rfl, ht, k, v, rfl, hv⟩ := h.of_append
        exact image_ifThenElse hu (ih (by omega) ha ht) (ih (by omega) hb hv)
      · rename_i hs
        exact image_ifThen hu (ih (by omega) (Chain.closes_of_lastSplit?_eq_none hs hc) h)
    | .whileHead c :: rest, hc, h =>
      obtain ⟨x, y, u, z, t, rfl, hu, h⟩ := h
      rw [List.length_cons] at hn
      exact image_while hu (ih (by omega) hc h)
    | [.simple s], _, h =>
      obtain ⟨u, _, rfl, hu, rfl⟩ := h
      rwa [List.append_nil]

theorem isComplete_chain (k : Nat) : IsComplete (chain k) := by
  intro a w v ha h
  simp only [alternatives, chainAlternatives, List.mem_cons, List.not_mem_nil, or_false] at ha
  rcases ha with rfl | rfl | rfl
  · simp only [Grammar.readsBy_node, Grammar.readsBy_last] at h
    obtain ⟨u, s, w, rfl, hs, links, ⟨hc, hl⟩, rfl⟩ := h
    refine ⟨?_, u, w, rfl, hs, hl⟩
    rcases hc with rfl | ⟨j, links', rfl, rfl, hc⟩
    · rfl
    · exact hc
  · simp only [Grammar.readsBy_skip, Grammar.readsBy_node, Grammar.readsBy_last] at h
    obtain ⟨x, _, rfl, y, _, rfl, u, c, _, rfl, hu, z, t, rfl, links, ⟨hc, hl⟩, rfl⟩ := h
    exact ⟨hc, x, y, u, z, t, rfl, hu, hl⟩
  · simp only [Grammar.readsBy_skip, Grammar.readsBy_node, Grammar.readsBy_last] at h
    obtain ⟨x, _, rfl, y, _, rfl, u, c, _, rfl, hu, z, t, rfl, links, ⟨hc, hl⟩, rfl⟩ := h
    exact ⟨hc, x, y, u, z, t, rfl, hu, hl⟩

theorem isComplete_chainEnd (k : Nat) : IsComplete (chainEnd k) := by
  intro a w v ha h
  cases k with
  | zero =>
    obtain rfl := List.mem_singleton.mp ha
    obtain ⟨rfl, rfl⟩ := h
    exact ⟨.inl rfl, rfl⟩
  | succ k =>
    simp only [alternatives, chainEndAlternatives, List.mem_cons, List.not_mem_nil, or_false] at ha
    rcases ha with rfl | rfl
    · simp only [Grammar.readsBy_skip, Grammar.readsBy_last] at h
      obtain ⟨x, t, rfl, links, ⟨hc, hl⟩, rfl⟩ := h
      exact ⟨.inr ⟨k, links, rfl, rfl, hc⟩, x, t, rfl, hl⟩
    · obtain ⟨rfl, rfl⟩ := h
      exact ⟨.inl rfl, rfl⟩

theorem isComplete_block : IsComplete block := by
  intro a w v ha h
  obtain rfl := List.mem_singleton.mp ha
  simp only [Grammar.readsBy_skip, Grammar.readsBy_node, Grammar.readsBy_nil] at h
  obtain ⟨x, _, rfl, u, ss, _, rfl, hss, y, _, rfl, rfl, rfl⟩ := h
  have hr := Reading.skip (t := .mark .leftBrace) (x := x) (Reading.many_of_each hss
    (.skip (t := .mark .rightBrace) (x := y) image_nil))
  rw [List.append_nil] at hr
  exact .of_rule (.head _) rfl hr (Action.ofRule_block ss)

theorem isComplete_declarator : IsComplete declarator := by
  intro a w v ha h
  obtain rfl := List.mem_singleton.mp ha
  simp only [Grammar.readsBy_take, Grammar.readsBy_node, Grammar.readsBy_last] at h
  obtain ⟨x, _, rfl, u, k, u', rfl, hk, e, he, rfl⟩ := h
  cases e with
  | none =>
    obtain rfl := he
    exact .of_rule (.head _) rfl (.take (.opt_dims hk (.without .nil)))
      (Action.ofRule_variableDeclarator x k none)
  | some e =>
    obtain ⟨y, u', rfl, he⟩ := he
    have hone := Reading.skip (t := .mark .equal) (x := y) (Reading.rule he image_nil)
    have hr := Reading.take (t := .identifier) (x := x) (Reading.opt_dims hk (.with_ hone image_nil))
    simp only [List.append_nil] at hr
    exact .of_rule (.head _) rfl hr (Action.ofRule_variableDeclarator x k (some e))

theorem isComplete_declaration : IsComplete declaration := by
  intro a w v ha h
  obtain rfl := List.mem_singleton.mp ha
  simp only [Grammar.readsBy_node, Grammar.readsBy_last] at h
  obtain ⟨u, ms, _, rfl, hms, u', t, _, rfl, ht, v, d, v', rfl, hd, ds, hds, rfl⟩ := h
  have hr := Reading.many_of_each hms (Reading.rule ht (Reading.separated hd hds image_nil))
  simp only [List.append_nil] at hr
  exact .of_rule (.head _) rfl hr (Action.ofRule_localVariableDeclaration ms t (d :: ds))

theorem isComplete_blockStatement : IsComplete blockStatement := by
  intro a w v ha h
  simp only [alternatives, blockStatementAlternatives, List.mem_cons, List.not_mem_nil, or_false]
    at ha
  rcases ha with rfl | rfl
  · simp only [Grammar.readsBy_skip, Grammar.readsBy_node, Grammar.readsBy_nil] at h
    obtain ⟨u, d, _, rfl, hd, x, _, rfl, rfl, rfl⟩ := h
    exact .intro (.head _) (.rule hd (.skip .nil)) rfl
  · obtain ⟨links, ⟨hc, hl⟩, rfl⟩ := Grammar.readsBy_last.mp h
    exact .choose (.tail _ (.head _)) rfl (image_statementOfSize (Nat.le_refl _) hc hl)

theorem isComplete_simpleStatement : IsComplete simpleStatement := by
  intro a w v ha h
  simp only [alternatives, simpleStatementAlternatives, List.mem_cons, List.not_mem_nil, or_false]
    at ha
  rcases ha with rfl | rfl | rfl | rfl | rfl | rfl
  · obtain ⟨b, hb, rfl⟩ := Grammar.readsBy_last.mp h
    exact .choose (.head _) rfl hb
  · simp only [Grammar.readsBy_skip, Grammar.readsBy_node, Grammar.readsBy_last] at h
    obtain ⟨x, _, rfl, u, b, w, rfl, hb, k, hk, rfl⟩ := h
    exact .choose (.tail _ (.tail _ (.tail _ (.head _)))) rfl (hk hb)
  · simp only [Grammar.readsBy_skip, Grammar.readsBy_node, Grammar.readsBy_nil] at h
    obtain ⟨x, _, rfl, u, e, _, rfl, he, y, _, rfl, rfl, rfl⟩ := h
    have hr := Reading.skip (t := .keyword .return_) (x := x) (Reading.opt_of_perhaps he
      (.skip (t := .mark .semicolon) (x := y) image_nil))
    rw [List.append_nil] at hr
    exact .choose (.tail _ (.tail _ (.tail _ (.tail _ (.head _))))) rfl
      (.of_rule (r := .returnStatement) (.head _) rfl hr (Action.ofRule_returnStatement e))
  · simp only [Grammar.readsBy_skip, Grammar.readsBy_node, Grammar.readsBy_nil] at h
    obtain ⟨x, _, rfl, u, e, _, rfl, he, y, _, rfl, rfl, rfl⟩ := h
    exact .choose (.tail _ (.tail _ (.tail _ (.tail _ (.tail _ (.head _)))))) rfl
      (.of_rule (r := .throwStatement) (.head _) rfl (.skip (.rule he (.skip .nil))) rfl)
  · simp only [Grammar.readsBy_skip, Grammar.readsBy_node, Grammar.readsBy_nil] at h
    obtain ⟨u, e, _, rfl, he, y, _, rfl, rfl, rfl⟩ := h
    exact .choose (.tail _ (.tail _ (.tail _ (.tail _ (.tail _ (.tail _ (.head _))))))) rfl
      (.of_rule (r := .expressionStatement) (.head _) rfl (.rule he (.skip .nil)) rfl)
  · simp only [Grammar.readsBy_skip, Grammar.readsBy_nil] at h
    obtain ⟨y, _, rfl, rfl, rfl⟩ := h
    exact .choose (.tail _ (.tail _ (.tail _ (.tail _ (.tail _ (.tail _ (.tail _ (.head _)))))))) rfl
      (.of_rule (r := .emptyStatement) (.head _) rfl (.skip .nil) rfl)

theorem isComplete_tryTail : IsComplete tryTail := by
  have hfinal : ∀ {w : List Lexeme} {x : Text} {b : Block}, Rule.block.Image w (.ofBlock b) →
      Rule.finallyClause.Image (⟨.keyword .finally_, x⟩ :: w) (.ofBlock b) := by
    intro w x b hb
    have hr := Reading.skip (t := .keyword .finally_) (x := x) (Reading.rule hb image_nil)
    rw [List.append_nil] at hr
    exact .of_rule (.head _) rfl hr rfl
  intro a w v ha h
  simp only [alternatives, tryTailAlternatives, List.mem_cons, List.not_mem_nil, or_false] at ha
  rcases ha with rfl | rfl
  · simp only [Grammar.readsBy_node, Grammar.readsBy_last] at h
    obtain ⟨v, c, _, rfl, hc, v', cs, v'', rfl, hcs, final, hf, rfl⟩ := h
    intro x u b hb
    have hf' : Perhaps (Written .finallyClause Item.ofBlock) v'' final := by
      cases final with
      | none => exact hf
      | some final =>
        obtain ⟨y, v'', rfl, hf⟩ := hf
        exact hfinal hf
    have hr := Reading.skip (t := .keyword .try_) (x := x) (Reading.rule hb (.rule hc
      (.many_of_each hcs (.opt_of_perhaps hf' image_nil))))
    simp only [List.append_nil] at hr
    exact .of_rule (.head _) rfl hr (Action.ofRule_tryStatement b (c :: cs) final)
  · simp only [Grammar.readsBy_skip, Grammar.readsBy_last] at h
    obtain ⟨y, w, rfl, final, hf, rfl⟩ := h
    intro x u b hb
    have hr := Reading.skip (t := .keyword .try_) (x := x) (Reading.rule hb
      (.rule (hfinal (x := y) hf) image_nil))
    rw [List.append_nil] at hr
    exact .of_rule (.tail _ (.head _)) rfl hr rfl

theorem isComplete_catchClause : IsComplete catchClause := by
  intro a w v ha h
  obtain rfl := List.mem_singleton.mp ha
  simp only [Grammar.readsBy_skip, Grammar.readsBy_take, Grammar.readsBy_node,
    Grammar.readsBy_last] at h
  obtain ⟨x, _, rfl, y, _, rfl, u, ms, _, rfl, hms, u', ts, _, rfl, hts, n, _, rfl, z, w, rfl, b,
    hb, rfl⟩ := h
  have hr := Reading.skip (t := .keyword .catch_) (x := x) (.skip (t := .mark .leftParenthesis)
    (x := y) (Reading.many_of_each hms (.rule hts (.take (t := .identifier) (x := n)
      (.skip (t := .mark .rightParenthesis) (x := z) (.rule hb image_nil))))))
  rw [List.append_nil] at hr
  exact .of_rule (.head _) rfl hr (Action.ofRule_catchClause ms ts n b)

theorem isComplete_methodBody : IsComplete methodBody := by
  intro a w v ha h
  simp only [alternatives, List.mem_cons, List.not_mem_nil, or_false] at ha
  rcases ha with rfl | rfl
  · obtain ⟨b, hb, rfl⟩ := Grammar.readsBy_last.mp h
    have hr := Reading.rule hb image_nil
    rw [List.append_nil] at hr
    exact .of_rule (.head _) rfl hr rfl
  · simp only [Grammar.readsBy_skip, Grammar.readsBy_nil] at h
    obtain ⟨x, _, rfl, rfl, rfl⟩ := h
    exact .of_rule (.tail _ (.head _)) rfl (.skip .nil) rfl

theorem isComplete_method : IsComplete method := by
  intro a w v ha h
  obtain rfl := List.mem_singleton.mp ha
  simp only [Grammar.readsBy_take, Grammar.readsBy_node, Grammar.readsBy_last] at h
  obtain ⟨u, ms, _, rfl, hms, u₁, tps, _, rfl, htps, u₂, t, _, rfl, ht, x, _, rfl, u₃, ps, _, rfl,
    hps, u₄, cs, u₅, rfl, hcs, b, hb, rfl⟩ := h
  obtain ⟨hcs₀, hcs⟩ : cs ≠ some [] ∧ Perhaps (Written .throwsClause Item.ofClassTypes) u₄ cs := by
    cases cs with
    | none => exact ⟨Ne.symm (Option.some_ne_none _), hcs⟩
    | some cs => exact ⟨fun h => hcs.1 (Option.some.inj h), hcs.2⟩
  have hr := Reading.many_of_each hms (Reading.opt_of_perhaps htps (.rule ht
    (.take (t := .identifier) (x := x) (.rule hps (.opt_of_perhaps hcs (.rule hb image_nil))))))
  simp only [List.append_nil] at hr
  exact .of_rule (.head _) rfl hr (Action.ofRule_methodDeclaration ms tps t x ps cs b hcs₀)

end MemberAccess.Java.Ebnf
