import MemberAccess.Proofs.Java.Ebnf.Node
import MemberAccess.Proofs.Java.Shape

/-!
# What the nodes of statements are made of

One lemma for each rule in which statements stand: what its lexemes are, which pieces they leave,
and which item these make.
-/

namespace MemberAccess.Java.Ebnf

namespace Item

def ofStatement (s : Statement) : Item := statement (.statement s)

theorem ofStatement_inj {s s' : Statement} : ofStatement s = ofStatement s' ↔ s = s' := by
  simp [ofStatement]

theorem ofBlock_inj {b b' : Block} : ofBlock b = ofBlock b' ↔ b = b' := by
  simp [ofBlock]

end Item

/-- Whether no statement stands in what the rule derives, other than in a statement without a
branch. -/
def Rule.isPlain : Rule → Bool
  | start | methodDeclaration | methodBody | block | blockStatement | statement | ifStatement
  | whileStatement | tryStatement | catchClause | finallyClause => false
  | _ => true

theorem Rule.isPlain_of_mem {r r' : Rule} {p : Production} (hr : r.isPlain)
    (hp : p ∈ r.productions) (h : r' ∈ rulesOf p.parts) : r'.isPlain := by
  have hall : ∀ {ps : List Production}, (ps.all fun p => (rulesOf p.parts).all isPlain) →
      p ∈ ps → r'.isPlain := by
    intro ps hps hp
    exact List.all_eq_true.mp (List.all_eq_true.mp hps p hp) r' h
  cases r with
  | binary p | operator p => cases p <;> exact hall (by decide) hp
  | start | methodDeclaration | methodBody | block | blockStatement | statement | ifStatement
  | whileStatement | tryStatement | catchClause | finallyClause => cases hr
  | _ => exact hall (by decide) hp

section
variable {r : Rule} {n : Nonterminal} {item : n.Value → Item} {w : List Lexeme} {qs : List Piece}

/-- All nodes among the pieces are of rules in which no statements stand. -/
def ArePlain (qs : List Piece) : Prop := ∀ c : Node, .node c ∈ qs → c.rule.isPlain

theorem Pieces.arePlain {ps : List Part} (h : Pieces ps w qs)
    (hps : (rulesOf ps).all Rule.isPlain) : ArePlain qs :=
  fun _ hc => List.all_eq_true.mp hps _ (h.of_mem hc).1

abbrev Nodes (r : Rule) : List Lexeme → List Piece → Prop :=
  Repeats .token (fun r u q => ∃ x, q = .node ⟨r, u, x⟩ ∧ r.Image u x) [.rule r]

theorem exists_of_nodes (hm : ∀ u x, Means r u x → Agree n item u x) (h : Nodes r w qs) :
    grammar.Is (.many n) w ∧ ∃ vs : List n.Value, qs.map Piece.item = vs.map item := by
  induction h with
  | nil => exact ⟨Nonterminal.is_many_iff.mpr (.inr rfl), [], rfl⟩
  | @cons u w us qs hu _ ih =>
    obtain ⟨u, q, _, _, rfl, rfl, ⟨x, rfl, hx⟩, hn⟩ := Reading.rule_iff.mp hu
    obtain ⟨rfl, rfl⟩ := Reading.nil_iff.mp hn
    obtain ⟨v, v', hv, rfl, -⟩ := hm u x hx.means
    obtain ⟨hw, vs, hvs⟩ := ih
    refine ⟨Nonterminal.is_many_iff.mpr (.inl ⟨u, w, by rw [List.append_nil], hv.is, hw⟩), v :: vs, ?_⟩
    exact congrArg _ hvs

theorem Nodes.eq_node (h : Nodes r w qs) {q : Piece} (hq : q ∈ qs) : ∃ u x, q = .node ⟨r, u, x⟩ := by
  induction h with
  | nil => cases hq
  | cons hu _ ih =>
    obtain ⟨u, q, _, _, rfl, rfl, ⟨x, rfl, -⟩, hn⟩ := Reading.rule_iff.mp hu
    obtain ⟨rfl, rfl⟩ := Reading.nil_iff.mp hn
    rcases List.mem_cons.mp hq with hq | hq
    · exact ⟨u, x, hq⟩
    · exact ih hq

theorem Nodes.rule_eq (h : Nodes r w qs) {c : Node} (hc : .node c ∈ qs) : c.rule = r := by
  obtain ⟨u, x, hc⟩ := h.eq_node hc
  rw [Piece.node.inj hc]

theorem Nodes.exists_node (h : Nodes r w qs) {vs : List n.Value}
    (hx : qs.map Piece.item = vs.map item) {v : n.Value} (hv : v ∈ vs) :
    ∃ u, .node ⟨r, u, item v⟩ ∈ qs := by
  obtain ⟨q, hq, hqv⟩ := List.mem_map.mp (hx ▸ List.mem_map_of_mem hv)
  obtain ⟨u, x, rfl⟩ := h.eq_node hq
  obtain rfl : x = item v := hqv
  exact ⟨u, hq⟩

end

namespace Node.IsMadeOf
open Rule

variable {w : List Lexeme} {x : Item} {qs : List Piece}

theorem start (h : IsMadeOf ⟨start, w, x⟩ qs) : qs = [.node ⟨methodDeclaration, w, x⟩] := by
  obtain ⟨p, hp, hq, hx⟩ := h
  simp only [productions, oneOf, List.map_cons, List.map_nil, List.mem_singleton] at hp
  obtain rfl := hp
  obtain ⟨u, _, _, _, rfl, rfl, ⟨y, rfl, -⟩, hn⟩ := Reading.rule_iff.mp hq
  obtain ⟨rfl, rfl⟩ := Reading.nil_iff.mp hn
  obtain rfl : y = x := Option.some.inj hx
  rw [List.append_nil]

abbrev headerSymbols : List (Symbol Terminal Nonterminal) :=
  [.node (.many .modifier), .node (.opt .typeParameters), .node .result, .take .identifier,
   .node .formalParameters, .node (.opt .throwsClause)]

theorem methodDeclaration (h : IsMadeOf ⟨methodDeclaration, w, x⟩ qs) :
    ∃ u us v m, w = u ++ v ∧ qs = us ++ [.node ⟨methodBody, v, .ofBody m.body⟩] ∧ ArePlain us ∧
      grammar.Spans headerSymbols u ∧ methodBody.Image v (.ofBody m.body) ∧ x = .method m := by
  obtain ⟨p, hp, hq, hx⟩ := h
  obtain rfl := List.mem_singleton.mp hp
  obtain ⟨u, us, v, _, rfl, rfl, hu, hv⟩ := hq.last rfl
  obtain ⟨b, b', hb, rfl, -⟩ := hv.means
  obtain ⟨u₁, ms, _, _, rfl, hxs, hms, h₁⟩ := hu.understood.exact_many fun _ _ => id
  obtain ⟨u₂, tps, _, _, rfl, rfl, htps, h₂⟩ := Understood.exact_opt (fun _ _ => id) h₁
  obtain ⟨u₃, t, _, _, rfl, rfl, ht, h₃⟩ := Understood.exact (fun _ _ => id) h₂
  obtain ⟨i, _, _, rfl, rfl, h₄⟩ := Reading.take_iff.mp h₃
  obtain ⟨u₄, ps, _, _, rfl, rfl, hps, h₅⟩ := Understood.exact (fun _ _ => id) h₄
  obtain ⟨u₅, cs, _, _, rfl, rfl, hcs, h₆⟩ := Understood.exact_opt (fun _ _ => id) h₅
  obtain ⟨rfl, rfl⟩ := Reading.nil_iff.mp h₆
  have hitems : (us ++ [Piece.node ⟨methodBody, v, .ofBody b⟩]).map Piece.item =
      ms.map .modifier ++ Item.afterModifiers tps t i ps cs b := by
    rw [List.map_append, hxs, Item.afterModifiers]
    simp only [List.append_assoc, List.cons_append, List.nil_append]
    rfl
  rw [hitems, Production.item_of_rule rfl,
    Action.ofRule_methodDeclaration ms tps t i ps cs b (ne_nil_of_throwsClause hcs)] at hx
  exact ⟨_, us, v, ⟨ms, tps.getD [], t, i, ps, cs.getD [], b, none⟩, rfl, rfl, hu.arePlain rfl,
    ⟨u₁, _, rfl, hms.is, u₂, _, rfl, htps.is, u₃, _, rfl, ht.is, i, _, rfl, u₄, _, rfl, hps.is, u₅,
      _, rfl, hcs.is, rfl⟩, hv, (Option.some.inj hx).symm⟩

theorem methodBody (h : IsMadeOf ⟨methodBody, w, x⟩ qs) :
    (∃ b, qs = [.node ⟨block, w, .ofBlock b⟩] ∧ x = .ofBlock b) ∨ qs = [] ∧ x = .absent := by
  obtain ⟨p, hp, hq, hx⟩ := h
  simp only [productions, List.mem_cons, List.not_mem_nil, or_false] at hp
  rcases hp with rfl | rfl
  · obtain ⟨u, _, _, _, rfl, rfl, ⟨y, rfl, hy⟩, hn⟩ := Reading.rule_iff.mp hq
    obtain ⟨rfl, rfl⟩ := Reading.nil_iff.mp hn
    obtain ⟨b, b', -, rfl, -⟩ := hy.means
    rw [List.append_nil]
    exact .inl ⟨b, rfl, (Option.some.inj hx).symm⟩
  · obtain ⟨_, _, -, hn⟩ := Reading.skip_iff.mp hq
    obtain ⟨-, rfl⟩ := Reading.nil_iff.mp hn
    exact .inr ⟨rfl, (Option.some.inj hx).symm⟩

theorem block (h : IsMadeOf ⟨block, w, x⟩ qs) :
    ∃ y u z ss, w = ⟨.mark .leftBrace, y⟩ :: (u ++ [⟨.mark .rightBrace, z⟩]) ∧
      Nodes blockStatement u qs ∧ qs.map Piece.item = ss.map .statement ∧ x = .ofBlock (.mk ss) := by
  obtain ⟨p, hp, hq, hx⟩ := h
  obtain rfl := List.mem_singleton.mp hp
  obtain ⟨y, _, rfl, h₁⟩ := Reading.skip_iff.mp hq
  obtain ⟨u, us, _, _, rfl, rfl, hu, h₂⟩ := Reading.many_iff.mp h₁
  obtain ⟨z, _, rfl, h₃⟩ := Reading.skip_iff.mp h₂
  obtain ⟨rfl, rfl⟩ := Reading.nil_iff.mp h₃
  rw [List.append_nil] at hx ⊢
  obtain ⟨-, ss, hss⟩ := exists_of_nodes (r := blockStatement) (fun _ _ => id) hu
  rw [Production.item_of_rule rfl, hss, Action.ofRule_block] at hx
  exact ⟨y, u, z, ss, rfl, hu, hss, (Option.some.inj hx).symm⟩

theorem blockStatement (h : IsMadeOf ⟨blockStatement, w, x⟩ qs) :
    (∃ u y d, w = u ++ [⟨.mark .semicolon, y⟩] ∧ qs = [.node ⟨localVariableDeclaration, u, x⟩] ∧
        Nonterminal.declaration.Derives u d ∧ x = .statement d) ∨
      ∃ s, qs = [.node ⟨statement, w, x⟩] ∧ x = .ofStatement s := by
  obtain ⟨p, hp, hq, hx⟩ := h
  simp only [productions, List.mem_cons, List.not_mem_nil, or_false] at hp
  rcases hp with rfl | rfl
  · obtain ⟨u, _, _, _, rfl, rfl, ⟨y, rfl, hy⟩, h₁⟩ := Reading.rule_iff.mp hq
    obtain ⟨z, _, rfl, h₂⟩ := Reading.skip_iff.mp h₁
    obtain ⟨rfl, rfl⟩ := Reading.nil_iff.mp h₂
    obtain ⟨d, hd, rfl⟩ := hy.means
    obtain rfl : .statement d = x := Option.some.inj hx
    exact .inl ⟨u, z, d, rfl, rfl, hd, rfl⟩
  · obtain ⟨u, _, _, _, rfl, rfl, ⟨y, rfl, hy⟩, hn⟩ := Reading.rule_iff.mp hq
    obtain ⟨rfl, rfl⟩ := Reading.nil_iff.mp hn
    obtain ⟨s, -, rfl, -⟩ := hy.means
    obtain rfl : Item.ofStatement s = x := Option.some.inj hx
    rw [List.append_nil]
    exact .inr ⟨s, rfl, rfl⟩

theorem statement (h : IsMadeOf ⟨statement, w, x⟩ qs) :
    ∃ r ∈ [Rule.block, ifStatement, whileStatement, tryStatement, returnStatement, throwStatement,
      expressionStatement, emptyStatement], qs = [.node ⟨r, w, x⟩] := by
  obtain ⟨p, hp, hq, hx⟩ := h
  obtain ⟨r, hr, rfl⟩ := List.mem_map.mp hp
  obtain ⟨u, _, _, _, rfl, rfl, ⟨y, rfl, -⟩, hn⟩ := Reading.rule_iff.mp hq
  obtain ⟨rfl, rfl⟩ := Reading.nil_iff.mp hn
  obtain rfl : y = x := Option.some.inj hx
  rw [List.append_nil]
  exact ⟨r, hr, rfl⟩

/-- The two ways in which a node of an `if` is made. -/
theorem ifStatement (h : IsMadeOf ⟨ifStatement, w, x⟩ qs) :
    ∃ a b u c z t, w = ⟨.keyword .if_, a⟩ :: ⟨.mark .leftParenthesis, b⟩ ::
        (u ++ ⟨.mark .rightParenthesis, z⟩ :: t) ∧ expression.Image u (.expression c) ∧
      ((∃ s, Rule.statement.Image t (.ofStatement s) ∧ x = .ofStatement (.ifThen c s) ∧
          qs = [.node ⟨expression, u, .expression c⟩, .node ⟨.statement, t, .ofStatement s⟩]) ∨
        ∃ t₁ e t₂ s₁ s₂, t = t₁ ++ ⟨.keyword .else_, e⟩ :: t₂ ∧
          Rule.statement.Image t₁ (.ofStatement s₁) ∧ Rule.statement.Image t₂ (.ofStatement s₂) ∧
          x = .ofStatement (.ifThenElse c s₁ s₂) ∧
          qs = [.node ⟨expression, u, .expression c⟩, .node ⟨.statement, t₁, .ofStatement s₁⟩,
            .node ⟨.statement, t₂, .ofStatement s₂⟩]) := by
  obtain ⟨p, hp, hq, hx⟩ := h
  obtain rfl := List.mem_singleton.mp hp
  obtain ⟨a, _, rfl, h₁⟩ := Reading.skip_iff.mp hq
  obtain ⟨b, _, rfl, h₂⟩ := Reading.skip_iff.mp h₁
  obtain ⟨u, _, _, _, rfl, rfl, ⟨y, rfl, hy⟩, h₃⟩ := Reading.rule_iff.mp h₂
  obtain ⟨z, _, rfl, h₄⟩ := Reading.skip_iff.mp h₃
  obtain ⟨t, _, _, _, rfl, rfl, ⟨y', rfl, hy'⟩, h₅⟩ := Reading.rule_iff.mp h₄
  obtain ⟨c, -, rfl⟩ := hy.means
  obtain ⟨s, -, rfl, -⟩ := hy'.means
  refine ⟨a, b, u, c, z, _, rfl, hy, ?_⟩
  rcases Reading.opt_iff.mp h₅ with h₆ | ⟨_, _, _, _, rfl, rfl, h₆, h₇⟩
  · obtain ⟨rfl, rfl⟩ := Reading.nil_iff.mp h₆
    rw [List.append_nil]
    exact .inl ⟨s, hy', (Option.some.inj hx).symm, rfl⟩
  · obtain ⟨rfl, rfl⟩ := Reading.nil_iff.mp h₇
    obtain ⟨e, _, rfl, h₈⟩ := Reading.skip_iff.mp h₆
    obtain ⟨t', _, _, _, rfl, rfl, ⟨y'', rfl, hy''⟩, h₉⟩ := Reading.rule_iff.mp h₈
    obtain ⟨rfl, rfl⟩ := Reading.nil_iff.mp h₉
    obtain ⟨s', -, rfl, -⟩ := hy''.means
    rw [List.append_nil, List.append_nil]
    exact .inr ⟨t, e, t', s, s', rfl, hy', hy'', (Option.some.inj hx).symm, rfl⟩

theorem whileStatement (h : IsMadeOf ⟨whileStatement, w, x⟩ qs) :
    ∃ a b u c z t s, w = ⟨.keyword .while_, a⟩ :: ⟨.mark .leftParenthesis, b⟩ ::
        (u ++ ⟨.mark .rightParenthesis, z⟩ :: t) ∧ expression.Image u (.expression c) ∧
      x = .ofStatement (.while_ c s) ∧
      qs = [.node ⟨expression, u, .expression c⟩, .node ⟨.statement, t, .ofStatement s⟩] := by
  obtain ⟨p, hp, hq, hx⟩ := h
  obtain rfl := List.mem_singleton.mp hp
  obtain ⟨a, _, rfl, h₁⟩ := Reading.skip_iff.mp hq
  obtain ⟨b, _, rfl, h₂⟩ := Reading.skip_iff.mp h₁
  obtain ⟨u, _, _, _, rfl, rfl, ⟨y, rfl, hy⟩, h₃⟩ := Reading.rule_iff.mp h₂
  obtain ⟨z, _, rfl, h₄⟩ := Reading.skip_iff.mp h₃
  obtain ⟨t, _, _, _, rfl, rfl, ⟨y', rfl, hy'⟩, h₅⟩ := Reading.rule_iff.mp h₄
  obtain ⟨rfl, rfl⟩ := Reading.nil_iff.mp h₅
  obtain ⟨c, -, rfl⟩ := hy.means
  obtain ⟨s, -, rfl, -⟩ := hy'.means
  rw [List.append_nil]
  exact ⟨a, b, u, c, z, t, s, rfl, hy, (Option.some.inj hx).symm, rfl⟩

theorem exists_of_finally (h : Pieces [.opt [.rule finallyClause]] w qs) :
    grammar.Is (.opt (.after (.keyword .finally_) .block)) w ∧
      ∃ final : Option Block, qs.map Piece.item = (final.map Item.ofBlock).toList ∧
        qs = (final.map fun b => .node ⟨finallyClause, w, .ofBlock b⟩).toList := by
  rcases Reading.opt_iff.mp h with h' | ⟨_, _, _, _, rfl, rfl, hu, h'⟩
  · obtain ⟨rfl, rfl⟩ := Reading.nil_iff.mp h'
    exact ⟨Nonterminal.is_opt_iff.mpr (.inr rfl), none, rfl, rfl⟩
  · obtain ⟨rfl, rfl⟩ := Reading.nil_iff.mp h'
    obtain ⟨u, _, _, _, rfl, rfl, ⟨x, rfl, hx⟩, hn⟩ := Reading.rule_iff.mp hu
    obtain ⟨rfl, rfl⟩ := Reading.nil_iff.mp hn
    obtain ⟨b, b', hb, rfl, -⟩ := hx.means
    simp only [List.append_nil]
    exact ⟨Nonterminal.is_opt_iff.mpr (.inl hb.is), some b, rfl, rfl⟩

/-- A `try` has a node for its body and one for each clause. -/
theorem tryStatement (h : IsMadeOf ⟨tryStatement, w, x⟩ qs) :
    ∃ y u b t rest cs final, w = ⟨.keyword .try_, y⟩ :: (u ++ t) ∧ Rule.block.Image u (.ofBlock b) ∧
      x = .ofStatement (.try_ b cs final) ∧ qs = .node ⟨.block, u, .ofBlock b⟩ :: rest ∧
      ((∃ v₁ v₂ v₃ c cs' us, t = v₁ ++ (v₂ ++ v₃) ∧ cs = c :: cs' ∧
          Rule.catchClause.Image v₁ (.catchClause c) ∧ Nodes catchClause v₂ us ∧
          us.map Piece.item = cs'.map .catchClause ∧
          grammar.Is (.opt (.after (.keyword .finally_) .block)) v₃ ∧
          rest = .node ⟨catchClause, v₁, .catchClause c⟩ ::
            (us ++ (final.map fun f => .node ⟨finallyClause, v₃, .ofBlock f⟩).toList)) ∨
        ∃ f, cs = [] ∧ final = some f ∧ Rule.finallyClause.Image t (.ofBlock f) ∧
          rest = [.node ⟨finallyClause, t, .ofBlock f⟩]) := by
  obtain ⟨p, hp, hq, hx⟩ := h
  simp only [productions, List.mem_cons, List.not_mem_nil, or_false] at hp
  rcases hp with rfl | rfl
  · obtain ⟨y, _, rfl, h₁⟩ := Reading.skip_iff.mp hq
    obtain ⟨u, _, _, _, rfl, rfl, ⟨_, rfl, hb⟩, h₂⟩ := Reading.rule_iff.mp h₁
    obtain ⟨v₁, _, _, _, rfl, rfl, ⟨_, rfl, hc⟩, h₃⟩ := Reading.rule_iff.mp h₂
    obtain ⟨v₂, us, v₃, _, rfl, rfl, hus, h₄⟩ := Reading.many_iff.mp h₃
    obtain ⟨b, -, -, rfl, -⟩ := hb.means
    obtain ⟨c, -, -, rfl, -⟩ := hc.means
    obtain ⟨-, cs, hcs⟩ := exists_of_nodes (r := .catchClause) (fun _ _ => id) hus
    obtain ⟨hv₃, final, hfinal, rfl⟩ := exists_of_finally h₄
    rw [List.map_cons, List.map_cons, List.map_append, hcs, hfinal] at hx
    have hx := (Action.ofRule_tryStatement b (c :: cs) final).symm.trans hx
    exact ⟨y, u, b, _, _, c :: cs, final, rfl, hb, (Option.some.inj hx).symm, rfl,
      .inl ⟨v₁, v₂, v₃, c, cs, us, rfl, rfl, hc, hus, hcs, hv₃, rfl⟩⟩
  · obtain ⟨y, _, rfl, h₁⟩ := Reading.skip_iff.mp hq
    obtain ⟨u, _, _, _, rfl, rfl, ⟨_, rfl, hb⟩, h₂⟩ := Reading.rule_iff.mp h₁
    obtain ⟨v, _, _, _, rfl, rfl, ⟨_, rfl, hv⟩, h₃⟩ := Reading.rule_iff.mp h₂
    obtain ⟨rfl, rfl⟩ := Reading.nil_iff.mp h₃
    obtain ⟨b, -, -, rfl, -⟩ := hb.means
    obtain ⟨f, -, -, rfl, -⟩ := hv.means
    rw [List.append_nil]
    exact ⟨y, u, b, v, _, [], some f, rfl, hb, (Option.some.inj hx).symm, rfl,
      .inr ⟨f, rfl, rfl, hv, rfl⟩⟩

abbrev catchSymbols : List (Symbol Terminal Nonterminal) :=
  [.skip (.keyword .catch_), .skip (.mark .leftParenthesis), .node (.many .variableModifier),
   .node .catchTypes, .take .identifier, .skip (.mark .rightParenthesis)]

theorem catchClause (h : IsMadeOf ⟨catchClause, w, x⟩ qs) :
    ∃ u us v ms ts i b, w = u ++ v ∧ qs = us ++ [.node ⟨.block, v, .ofBlock b⟩] ∧ ArePlain us ∧
      grammar.Spans catchSymbols u ∧ Rule.block.Image v (.ofBlock b) ∧
      x = .catchClause (.mk ms ts i b) := by
  obtain ⟨p, hp, hq, hx⟩ := h
  obtain rfl := List.mem_singleton.mp hp
  obtain ⟨u, us, v, _, rfl, rfl, hu, hv⟩ := hq.last rfl
  obtain ⟨b, b', hb, rfl, -⟩ := hv.means
  obtain ⟨y, _, rfl, h₁⟩ := Reading.skip_iff.mp hu.understood
  obtain ⟨y', _, rfl, h₂⟩ := Reading.skip_iff.mp h₁
  obtain ⟨u₁, ms, _, _, rfl, hxs, hms, h₃⟩ := Understood.exact_many (fun _ _ => id) h₂
  obtain ⟨u₂, ts, _, _, rfl, rfl, hts, h₄⟩ := Understood.exact (fun _ _ => id) h₃
  obtain ⟨i, _, _, rfl, rfl, h₅⟩ := Reading.take_iff.mp h₄
  obtain ⟨z, _, rfl, h₆⟩ := Reading.skip_iff.mp h₅
  obtain ⟨rfl, rfl⟩ := Reading.nil_iff.mp h₆
  have hitems : (us ++ [Piece.node ⟨.block, v, .ofBlock b⟩]).map Piece.item =
      ms.map .modifier ++ [Item.ofClassTypes ts, .token ⟨.identifier, i⟩, Item.ofBlock b] := by
    rw [List.map_append, hxs]
    simp only [List.append_assoc, List.cons_append, List.nil_append]
    rfl
  rw [hitems, Production.item_of_rule rfl, Action.ofRule_catchClause] at hx
  exact ⟨_, us, v, ms, ts, i, b, rfl, rfl, hu.arePlain rfl, ⟨y, _, rfl, y', _, rfl, u₁, _, rfl,
    hms.is, u₂, _, rfl, hts.is, i, _, rfl, z, _, rfl, rfl⟩, hv, (Option.some.inj hx).symm⟩

theorem finallyClause (h : IsMadeOf ⟨finallyClause, w, x⟩ qs) :
    ∃ y u b, w = ⟨.keyword .finally_, y⟩ :: u ∧ qs = [.node ⟨.block, u, .ofBlock b⟩] ∧
      x = .ofBlock b := by
  obtain ⟨p, hp, hq, hx⟩ := h
  obtain rfl := List.mem_singleton.mp hp
  obtain ⟨y, _, rfl, h₁⟩ := Reading.skip_iff.mp hq
  obtain ⟨u, _, _, _, rfl, rfl, ⟨_, rfl, hb⟩, h₂⟩ := Reading.rule_iff.mp h₁
  obtain ⟨rfl, rfl⟩ := Reading.nil_iff.mp h₂
  obtain ⟨b, -, -, rfl, -⟩ := hb.means
  rw [List.append_nil]
  exact ⟨y, u, b, rfl, rfl, (Option.some.inj hx).symm⟩

end Node.IsMadeOf

end MemberAccess.Java.Ebnf
