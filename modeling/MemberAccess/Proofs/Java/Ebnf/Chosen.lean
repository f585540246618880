import MemberAccess.Proofs.Java.Ebnf.Completeness
import MemberAccess.Proofs.Java.Ebnf.Pieces
import MemberAccess.Proofs.Java.Preferred

/-!
# The readings chosen at the nodes of a parsed text

The item of a parsed text is made by the preferred reading. Any derivation of the item has the same
reading at each of its nodes that covers a statement: that of the node's own lexemes.
-/

namespace MemberAccess.Java.Ebnf

/-- The item is the value that is preferred for the lexemes. -/
def Chosen (n : Nonterminal) (item : n.Value → Item) (w : List Lexeme) (x : Item) : Prop :=
  ∃ v : n.Value, n.Preferred w v ∧ x = item v

/-- The item is the statement that links with preferred values are. -/
def ChosenStatement (w : List Lexeme) (x : Item) : Prop :=
  ∃ links, Nonterminal.Linked Nonterminal.Preferred w links ∧ Chain.closes 0 links ∧
    x = .ofStatement links.statement

namespace Node

open Nonterminal in
/-- The item of the node is the preferred one for its lexemes. -/
def IsChosen (n : Node) : Prop :=
  match n.rule with
  | .start | .methodDeclaration => Chosen method .method n.lexemes n.item
  | .methodBody => Chosen methodBody Item.ofBody n.lexemes n.item
  | .block => Chosen block Item.ofBlock n.lexemes n.item
  | .blockStatement => Chosen blockStatement .statement n.lexemes n.item
  | .statement | .ifStatement | .whileStatement | .tryStatement =>
    ChosenStatement n.lexemes n.item
  | .catchClause => Chosen catchClause .catchClause n.lexemes n.item
  | .finallyClause => ∃ y u, n.lexemes = ⟨.keyword .finally_, y⟩ :: u ∧
    Chosen block Item.ofBlock u n.item
  | _ => True

theorem isChosen_of_isPlain {n : Node} (h : n.rule.isPlain) : n.IsChosen := by
  obtain ⟨r, w, x⟩ := n
  cases r <;> trivial

/-- Only the last piece is to be looked at if the others are plain. -/
theorem isChosen_of_last {us : List Piece} {c n : Node} (hus : ArePlain us)
    (hc : .node c ∈ us ++ [.node n]) (hn : n.IsChosen) : c.IsChosen := by
  rcases List.mem_append.mp hc with hc | hc
  · exact isChosen_of_isPlain (hus c hc)
  · exact Piece.node.inj (List.mem_singleton.mp hc) ▸ hn

end Node

/-- The lexemes of a statement are those of as many links as the statement has. -/
theorem Rule.Image.exists_links {t : List Lexeme} {s : Statement}
    (h : Rule.statement.Image t (.ofStatement s)) :
    ∃ links, Nonterminal.Linked Nonterminal.Derives t links ∧ Chain.closes 0 links ∧
      links.length = s.links.length := by
  obtain ⟨s', s'', hs, hn, hd, -⟩ := h.means
  obtain rfl := Item.ofStatement_inj.mp hs
  have ht := hd (Nonterminal.derives_chainEnd.mpr (.inl ⟨rfl, rfl⟩) : (Nonterminal.chainEnd 0).Derives [] [])
  rw [List.append_nil, List.append_nil] at ht
  obtain ⟨hl, hc⟩ := Nonterminal.derives_chain_iff.mp ht
  exact ⟨_, hl, hc, hn⟩

theorem Derives.exists_links {t : List Lexeme} {tree : Tree} (h : Derives .statement t tree) :
    ∃ links, Nonterminal.Linked Nonterminal.Derives t links ∧ Chain.closes 0 links := by
  obtain ⟨_, hx, s, -, rfl, -⟩ := h.exists_item
  obtain ⟨links, hl, hc, -⟩ := Rule.Image.exists_links (s := s) ⟨tree, h, hx⟩
  exact ⟨links, hl, hc⟩

/-- What is chosen at a node is chosen at its children. -/
def Rule.Passes (r : Rule) : Prop :=
  ∀ {w : List Lexeme} {x : Item} {qs : List Piece} {c : Node}, Node.IsMadeOf ⟨r, w, x⟩ qs →
    Node.IsChosen ⟨r, w, x⟩ → .node c ∈ qs → c.IsChosen

namespace Rule
open Nonterminal

theorem passes_of_isPlain {r : Rule} (hr : r.isPlain) : r.Passes := by
  rintro w x qs c ⟨p, hp, hq, -⟩ - hc
  exact Node.isChosen_of_isPlain (isPlain_of_mem hr hp (hq.of_mem hc).1)

theorem passes_start : start.Passes := by
  intro w x qs c h hn hc
  obtain rfl := h.start
  obtain rfl := Piece.node.inj (List.mem_singleton.mp hc)
  exact hn

theorem passes_methodDeclaration : methodDeclaration.Passes := by
  rintro w x qs c h ⟨m, hm, rfl⟩ hc
  obtain ⟨u, us, v, m', rfl, rfl, hus, hu, hv, hmm⟩ := h.methodDeclaration
  obtain rfl := Item.method.inj hmm
  refine Node.isChosen_of_last hus hc ?_
  obtain ⟨a, ha, hm⟩ := unfolds_preferred hm
  obtain rfl := List.mem_singleton.mp ha
  obtain ⟨v₁, ms, _, he, hms, v₂, tps, _, rfl, htps, v₃, t, _, rfl, ht, i, _, rfl, v₄, ps, _, rfl,
    hps, v₅, cs, _, rfl, hcs, v₆, b, _, rfl, hb, rfl, rfl⟩ := hm
  obtain ⟨b', b'', hb', -⟩ := hv.means
  obtain rfl : v = v₆ := eq_of_last ha rfl (by decide) rfl hu hb'.is
    ⟨v₁, _, rfl, hms.is, v₂, _, rfl, htps.is, v₃, _, rfl, ht.is, i, _, rfl, v₄, _, rfl, hps.is, v₅,
      [], (List.append_nil _).symm, hcs.is, rfl⟩ hb.is (by simpa using he)
  exact ⟨b, hb, rfl⟩

theorem passes_methodBody : methodBody.Passes := by
  rintro w x qs c h ⟨b, hb, rfl⟩ hc
  rcases h.methodBody with ⟨b', rfl, hx⟩ | ⟨rfl, -⟩
  · obtain rfl := Piece.node.inj (List.mem_singleton.mp hc)
    obtain ⟨a, ha, hb⟩ := unfolds_preferred hb
    simp only [alternatives, List.mem_cons, List.not_mem_nil, or_false] at ha
    rcases ha with rfl | rfl
    · obtain ⟨b, hb, rfl⟩ := Grammar.readsBy_last.mp hb
      exact ⟨b, hb, hx.symm⟩
    · obtain ⟨_, _, _, -, rfl⟩ := hb
      cases hx
  · cases hc

section
variable {r : Rule} {n : Nonterminal} {item : n.Value → Item} {w z : List Lexeme} {qs : List Piece}

/-- Each of some nodes of a rule is the preferred value if all together are. -/
theorem chosen_of_nodes (hm : ∀ u x, Means r u x → Agree n item u x) (h : Nodes r w qs)
    {vs : List n.Value} (hvs : (many n).Preferred w vs) (hx : qs.map Piece.item = vs.map item)
    (hz : Ends .plain (many n) z) {c : Node} (hc : .node c ∈ qs) :
    Chosen n item c.lexemes c.item := by
  induction h generalizing vs with
  | nil => cases hc
  | @cons u w us qs hu hw ih =>
    obtain ⟨u, q, _, _, rfl, rfl, ⟨x, rfl, hx'⟩, hn⟩ := Reading.rule_iff.mp hu
    obtain ⟨rfl, rfl⟩ := Reading.nil_iff.mp hn
    rw [List.append_nil] at hvs
    obtain ⟨a, ha, hvs⟩ := unfolds_preferred hvs
    simp only [alternatives, List.mem_cons, List.not_mem_nil, or_false] at ha
    rcases ha with rfl | rfl
    · obtain ⟨u', v, _, he, hv, w', vs, _, rfl, hvs', rfl, rfl⟩ := hvs
      rw [List.append_nil] at he
      obtain ⟨v', v'', hv', -⟩ := hm u x hx'.means
      obtain ⟨hxv, hx⟩ := List.cons.inj hx
      obtain rfl := eq_of_first hv'.is (exists_of_nodes hm hw).1 hv.is hvs'.is he hz
      obtain rfl := List.append_cancel_left he
      rcases List.mem_cons.mp hc with hc | hc
      · obtain rfl := Piece.node.inj hc
        exact ⟨v, hv, hxv⟩
      · exact ih hvs' hx hc
    · obtain ⟨-, rfl⟩ := hvs
      cases hx

end

theorem passes_block : block.Passes := by
  rintro w x qs c h ⟨b, hb, rfl⟩ hc
  obtain ⟨y, u, z, ss, rfl, hu, hss, hx⟩ := h.block
  obtain rfl := Item.ofBlock_inj.mp hx
  obtain ⟨a, ha, hb⟩ := unfolds_preferred hb
  obtain rfl := List.mem_singleton.mp ha
  obtain ⟨y', _, he, u', ss', _, rfl, hss', z', _, rfl, rfl, hbb⟩ := hb
  obtain ⟨rfl, -⟩ := List.append_inj' (List.cons.inj he).2 rfl
  obtain rfl := Block.mk.inj hbb
  have hends : Ends .plain (many Nonterminal.blockStatement) [⟨.mark .rightBrace, z⟩] :=
    .of_heads (by decide) rfl (heads_cons.mpr (show Terminal.mark .rightBrace ∈ _ by decide))
  have hchosen := chosen_of_nodes (fun _ _ => id) hu hss' hss hends hc
  have hr := hu.rule_eq hc
  obtain ⟨r, v, x⟩ := c
  obtain rfl := hr
  exact hchosen

theorem passes_blockStatement : blockStatement.Passes := by
  rintro w x qs c h ⟨s, hs, rfl⟩ hc
  rcases h.blockStatement with ⟨u, y, d, rfl, rfl, -, -⟩ | ⟨t, rfl, hx⟩
  · obtain rfl := Piece.node.inj (List.mem_singleton.mp hc)
    exact Node.isChosen_of_isPlain rfl
  · obtain rfl := Piece.node.inj (List.mem_singleton.mp hc)
    obtain ⟨a, ha, hs⟩ := unfolds_preferred hs
    simp only [alternatives, blockStatementAlternatives, List.mem_cons, List.not_mem_nil,
      or_false] at ha
    rcases ha with rfl | rfl
    · -- the value of a declaration is never a statement
      obtain ⟨u, d, _, -, hd, -, -, -, -, rfl⟩ := hs
      obtain ⟨a, ha, hd⟩ := unfolds_preferred hd
      obtain rfl := List.mem_singleton.mp ha
      obtain ⟨_, _, _, -, -, _, _, _, -, -, _, _, _, -, -, _, _, _, -, -, -, rfl⟩ := hd
      cases hx
    · obtain ⟨links, hl, rfl⟩ := Grammar.readsBy_last.mp hs
      obtain ⟨hl, hcloses⟩ := linked_of_chain unfolds_preferred hl
      exact ⟨links, hl, hcloses, rfl⟩

theorem passes_whileStatement : whileStatement.Passes := by
  rintro w x qs c h ⟨links, hl, hcloses, rfl⟩ hc
  obtain ⟨a, b, u, e, z, t, s, rfl, hu, hx, rfl⟩ := h.whileStatement
  obtain ⟨e', he', -⟩ := hu.means
  obtain ⟨e, rest, rfl, -, hrest⟩ := hl.of_while Preferred.derives he'.is
  rw [Item.ofStatement_inj, Chain.statement_whileHead] at hx
  obtain ⟨-, rfl⟩ := Statement.while_.inj hx
  simp only [List.mem_cons, Piece.node.injEq, List.not_mem_nil, or_false] at hc
  rcases hc with rfl | rfl
  · exact Node.isChosen_of_isPlain rfl
  · exact ⟨rest, hrest, hcloses, rfl⟩

/-- A statement whose item the links are covers the lexemes of the links. -/
theorem eq_of_statement {t u r r' : List Lexeme} {links : Chain}
    (h : statement.Image t (.ofStatement links.statement)) (hl : Linked Nonterminal.Derives u links)
    (hc : Chain.closes 0 links) (he : t ++ r = u ++ r') (hr : Heads LinkKind.follow r)
    (hr' : Heads LinkKind.follow r') : t = u := by
  obtain ⟨links', hl', -, hn⟩ := h.exists_links
  rw [hl.links_statement hc] at hn
  exact hl'.eq_of_length hl he hr hr' hn

/-- The pieces of an `if` are around the last `else` that has a statement on either side. -/
theorem pieces_of_isChosen {w : List Lexeme} {x : Item} {qs : List Piece}
    (h : Node.IsMadeOf ⟨ifStatement, w, x⟩ qs) (hn : Node.IsChosen ⟨ifStatement, w, x⟩) :
    ∃ a b u c z t links, w = ⟨.keyword .if_, a⟩ :: ⟨.mark .leftParenthesis, b⟩ ::
        (u ++ ⟨.mark .rightParenthesis, z⟩ :: t) ∧
      expression.Image u (.expression c) ∧ Linked Preferred t links ∧
      ((Chain.lastSplit? links = none ∧ Chain.closes 0 links ∧
          x = .ofStatement (.ifThen c links.statement) ∧
          qs = [.node ⟨expression, u, .expression c⟩,
            .node ⟨statement, t, .ofStatement links.statement⟩]) ∨
        ∃ l₁ l₂ t₁ e t₂, Chain.lastSplit? links = some (l₁, l₂) ∧
          t = t₁ ++ ⟨.keyword .else_, e⟩ :: t₂ ∧ Linked Preferred t₁ l₁ ∧
          Linked Preferred t₂ l₂ ∧ x = .ofStatement (.ifThenElse c l₁.statement l₂.statement) ∧
          qs = [.node ⟨expression, u, .expression c⟩,
            .node ⟨statement, t₁, .ofStatement l₁.statement⟩,
            .node ⟨statement, t₂, .ofStatement l₂.statement⟩]) := by
  obtain ⟨a, b, u, c, z, t, rfl, hu, hqs⟩ := h.ifStatement
  obtain ⟨links, hl, hc, hx⟩ := hn
  obtain ⟨e, he, -⟩ := hu.means
  obtain ⟨c', rest, rfl, -, hrest⟩ := hl.of_if Preferred.derives he.is
  refine ⟨a, b, u, c, z, t, rest, rfl, hu, hrest, ?_⟩
  cases hs : Chain.lastSplit? rest with
  | none =>
    rw [Chain.statement_ifHead_of_none hs] at hx
    rcases hqs with ⟨s, -, rfl, rfl⟩ | ⟨t₁, e, t₂, s₁, s₂, rfl, -, -, rfl, -⟩
    · obtain ⟨rfl, rfl⟩ := Statement.ifThen.inj (Item.ofStatement_inj.mp hx)
      exact .inl ⟨rfl, Chain.closes_of_lastSplit?_eq_none hs hc, rfl, rfl⟩
    · cases Item.ofStatement_inj.mp hx
  | some ll =>
    obtain ⟨l₁, l₂⟩ := ll
    rw [Chain.statement_ifHead_of_some hs] at hx
    rcases hqs with ⟨s, -, rfl, -⟩ | ⟨t₁, e, t₂, s₁, s₂, rfl, ht₁, ht₂, rfl, rfl⟩
    · cases Item.ofStatement_inj.mp hx
    · obtain ⟨rfl, rfl, rfl⟩ := Statement.ifThenElse.inj (Item.ofStatement_inj.mp hx)
      obtain ⟨rfl, hc₁, hc₂⟩ := Chain.lastSplit?_eq_some hs
      obtain ⟨v₁, e', v₂, hv, hl₁, hl₂⟩ := linked_else.mp hrest
      have helse : Terminal.keyword .else_ ∈ LinkKind.follow := by decide
      obtain rfl := eq_of_statement ht₁ (hl₁.mono Preferred.derives) hc₁ hv (heads_cons.mpr helse)
        (heads_cons.mpr helse)
      obtain ⟨he, rfl⟩ := List.cons.inj (List.append_cancel_left hv)
      exact .inr ⟨l₁, l₂, t₁, e, t₂, rfl, rfl, hl₁, hl₂, rfl, rfl⟩

theorem passes_ifStatement : ifStatement.Passes := by
  intro w x qs c h hn hc
  obtain ⟨a, b, u, e, z, t, links, rfl, -, hl, hif⟩ := pieces_of_isChosen h hn
  rcases hif with ⟨-, hc₀, rfl, rfl⟩ | ⟨l₁, l₂, t₁, k, t₂, hs, rfl, hl₁, hl₂, rfl, rfl⟩
  · simp only [List.mem_cons, Piece.node.injEq, List.not_mem_nil, or_false] at hc
    rcases hc with rfl | rfl
    · exact Node.isChosen_of_isPlain rfl
    · exact ⟨links, hl, hc₀, rfl⟩
  · obtain ⟨-, hc₁, hc₂⟩ := Chain.lastSplit?_eq_some hs
    simp only [List.mem_cons, Piece.node.injEq, List.not_mem_nil, or_false] at hc
    rcases hc with rfl | rfl | rfl
    · exact Node.isChosen_of_isPlain rfl
    · exact ⟨l₁, hl₁, hc₁, rfl⟩
    · exact ⟨l₂, hl₂, hc₂, rfl⟩

/-- A block is preferred as a block where it is a statement. -/
theorem chosen_block {w : List Lexeme} {b : Block} (hw : grammar.Is .block w)
    (h : ChosenStatement w (.ofBlock b)) : Chosen Nonterminal.block Item.ofBlock w (.ofBlock b) := by
  obtain ⟨links, hl, hcloses, hx⟩ := h
  obtain ⟨l, v, rfl, hfirst⟩ := firstTable.exists_cons_of_is hw rfl
  have hbrace : l.terminal ∈ simpleStatement.first := by
    rw [List.mem_singleton.mp hfirst]
    decide
  obtain ⟨s, rfl, hs⟩ := hl.of_simple Preferred.derives hcloses hbrace
  obtain rfl : .block b = s := Item.ofStatement_inj.mp hx
  obtain ⟨before, a, after, ha, hnot, hs⟩ := hs.exists_alternative
  cases before with
  | nil =>
    obtain ⟨rfl, -⟩ := List.cons.inj ha
    obtain ⟨b', hb', hbb⟩ := Grammar.readsBy_last.mp hs
    obtain rfl := Statement.block.inj hbb
    exact ⟨b', hb', rfl⟩
  | cons a' before =>
    obtain ⟨rfl, -⟩ := List.cons.inj ha
    exact absurd (Grammar.spans_singleton.mpr hw) (hnot _ List.mem_cons_self)

theorem passes_statement : statement.Passes := by
  intro w x qs c h hn hc
  have hc' : c.IsDerived := Node.IsChild.isDerived ⟨qs, h, hc⟩
  obtain ⟨r, hr, rfl⟩ := h.statement
  obtain rfl := Piece.node.inj (List.mem_singleton.mp hc)
  simp only [List.mem_cons, List.not_mem_nil, or_false] at hr
  rcases hr with rfl | rfl | rfl | rfl | rfl | rfl | rfl | rfl
  · obtain ⟨b, b', hb, rfl, -⟩ := hc'.means
    exact chosen_block hb.is hn
  all_goals first | exact hn | exact Node.isChosen_of_isPlain rfl

/-- What is preferred for a statement that begins with `try`. -/
theorem preferred_try {y : Text} {w : List Lexeme} {s : Statement}
    (h : simpleStatement.Preferred (⟨.keyword .try_, y⟩ :: w) s) :
    ∃ u b t k, w = u ++ t ∧ Nonterminal.block.Preferred u b ∧ tryTail.Preferred t k ∧ s = k b := by
  obtain ⟨a, ha, h⟩ := unfolds_preferred h
  simp only [alternatives, simpleStatementAlternatives, List.mem_cons, List.not_mem_nil,
    or_false] at ha
  rcases ha with rfl | rfl | rfl | rfl | rfl | rfl
  · obtain ⟨u, b, _, he, hu, -⟩ := h
    exact (false_of_first hu.is rfl he (by decide)).elim
  · obtain ⟨_, _, he, u, b, _, rfl, hu, t, k, _, rfl, ht, rfl, rfl⟩ := h
    rw [List.append_nil] at he
    exact ⟨u, b, t, k, (List.cons.inj he).2, hu, ht, rfl⟩
  · obtain ⟨_, _, he, -⟩ := h
    cases he
  · obtain ⟨_, _, he, -⟩ := h
    cases he
  · obtain ⟨u, e, _, he, hu, -⟩ := h
    exact (false_of_first hu.is rfl he (by decide)).elim
  · obtain ⟨_, _, he, -⟩ := h
    cases he

theorem eq_of_try {u u' t t' : List Lexeme} (hu : grammar.Is .block u) (ht : grammar.Is tryTail t)
    (hu' : grammar.Is .block u') (ht' : grammar.Is tryTail t') (he : u ++ t = u' ++ t') :
    u = u' ∧ t = t' := by
  have hends : ∀ {t}, grammar.Is tryTail t → Ends .plain Nonterminal.block t := fun h =>
    .of_heads (by decide) rfl ((firstTable.heads_of_is h).mono (by decide))
  exact eq_of_ends hu hu' he (hends ht) (hends ht')

theorem chosen_finally {w : List Lexeme} {f : Block}
    (h : (opt (after (.keyword .finally_) .block)).Preferred w (some f)) :
    Node.IsChosen ⟨finallyClause, w, .ofBlock f⟩ := by
  obtain ⟨a, ha, h⟩ := unfolds_preferred h
  simp only [alternatives, List.mem_cons, List.not_mem_nil, or_false] at ha
  rcases ha with rfl | rfl
  · obtain ⟨f', hf', hff⟩ := Grammar.readsBy_last.mp h
    obtain rfl := Option.some.inj hff
    obtain ⟨a, ha, hf⟩ := unfolds_preferred hf'
    obtain rfl := List.mem_singleton.mp ha
    obtain ⟨y, u, rfl, hu⟩ := Grammar.readsBy_skip.mp hf
    obtain ⟨f, hblock, rfl⟩ := Grammar.readsBy_last.mp hu
    exact ⟨y, u, rfl, f, hblock, rfl⟩
  · cases h.2

theorem ends_catchClauses {v : List Lexeme}
    (h : grammar.Is (opt (after (.keyword .finally_) .block)) v) :
    Ends .plain (many .catchClause) v :=
  .of_heads (by decide) rfl ((firstTable.heads_of_is h).mono (by decide))

/-- The clauses after a body are preferred with what is preferred for the whole `try`. -/
theorem chosen_of_catches {v₁ v₂ v₃ : List Lexeme} {k : Block → Statement} {b b' : Block}
    {cs : List CatchClause} {final : Option Block} (hv₁ : grammar.Is .catchClause v₁)
    (hv₂ : grammar.Is (many .catchClause) v₂)
    (hv₃ : grammar.Is (opt (after (.keyword .finally_) .block)) v₃)
    (hk : tryTail.Preferred (v₁ ++ (v₂ ++ v₃)) k) (hs : k b = .try_ b' cs final) :
    b' = b ∧ ∃ c cs', cs = c :: cs' ∧ Nonterminal.catchClause.Preferred v₁ c ∧
      (many .catchClause).Preferred v₂ cs' ∧
      ∀ f, final = some f → Node.IsChosen ⟨finallyClause, v₃, .ofBlock f⟩ := by
  have hclauses : ∀ {u v}, grammar.Is (many .catchClause) u →
      grammar.Is (opt (after (.keyword .finally_) .block)) v →
      Ends .plain Nonterminal.catchClause (u ++ v) := fun hu hv =>
    .of_heads (by decide) rfl (((firstTable.heads_of_is hu).mono (by decide)).append fun _ =>
      (firstTable.heads_of_is hv).mono (by decide))
  obtain ⟨a, ha, hk⟩ := unfolds_preferred hk
  simp only [alternatives, tryTailAlternatives, List.mem_cons, List.not_mem_nil, or_false] at ha
  rcases ha with rfl | rfl
  · obtain ⟨w₁, c, _, he, hc, w₂, cs', _, rfl, hcs, w₃, final', _, rfl, hf, rfl, rfl⟩ := hk
    rw [List.append_nil] at he
    obtain ⟨rfl, he'⟩ := eq_of_ends hv₁ hc.is he (hclauses hv₂ hv₃) (hclauses hcs.is hf.is)
    obtain ⟨rfl, rfl⟩ := eq_of_ends hv₂ hcs.is he' (ends_catchClauses hv₃)
      (ends_catchClauses hf.is)
    obtain ⟨rfl, rfl, rfl⟩ := Statement.try_.inj hs
    refine ⟨rfl, c, cs', rfl, hc, hcs, ?_⟩
    rintro f rfl
    exact chosen_finally hf
  · obtain ⟨_, _, he, -⟩ := hk
    exact (false_of_first hv₁ rfl he.symm (by decide)).elim

/-- Without such clauses the last block is preferred with it. -/
theorem chosen_of_finally {t : List Lexeme} {k : Block → Statement} {b b' f : Block}
    (hk : tryTail.Preferred t k) (hs : k b = .try_ b' [] (some f)) :
    b' = b ∧ Node.IsChosen ⟨finallyClause, t, .ofBlock f⟩ := by
  obtain ⟨a, ha, hk⟩ := unfolds_preferred hk
  simp only [alternatives, tryTailAlternatives, List.mem_cons, List.not_mem_nil, or_false] at ha
  rcases ha with rfl | rfl
  · obtain ⟨_, c, _, -, -, _, cs, _, -, -, _, _, _, -, -, -, rfl⟩ := hk
    cases hs
  · obtain ⟨y, u, rfl, hu⟩ := Grammar.readsBy_skip.mp hk
    obtain ⟨f', hf, rfl⟩ := Grammar.readsBy_last.mp hu
    obtain ⟨rfl, -, hff⟩ := Statement.try_.inj hs
    obtain rfl := Option.some.inj hff
    exact ⟨rfl, y, u, rfl, f', hf, rfl⟩

theorem passes_tryStatement : tryStatement.Passes := by
  rintro w x qs c h ⟨links, hl, hcloses, rfl⟩ hc
  obtain ⟨y, u, b, t, rest, cs, final, rfl, hu, hx, rfl, htail⟩ := h.tryStatement
  obtain ⟨s, rfl, hs⟩ := hl.of_simple Preferred.derives hcloses
    (show Terminal.keyword .try_ ∈ _ by decide)
  obtain ⟨u', b', t', k, he, hb, hk, rfl⟩ := preferred_try hs
  have hvalue : k b' = .try_ b cs final := Item.ofStatement_inj.mp hx
  obtain ⟨_, b₀, hb₀, -⟩ := hu.means
  rcases htail with ⟨v₁, v₂, v₃, c₁, cs, us, rfl, rfl, hc₁, hus, hcs, hv₃, rfl⟩ |
    ⟨f, rfl, rfl, hf, rfl⟩
  · obtain ⟨_, c₀, hc₀, -⟩ := hc₁.means
    have hv₂ := (exists_of_nodes (r := .catchClause) (fun _ _ => id) hus).1
    have htail : grammar.Is tryTail (v₁ ++ (v₂ ++ v₃)) := is_iff_spans.mpr
      ⟨_, .head _, v₁, _, rfl, hc₀.is, v₂, _, rfl, hv₂, Grammar.spans_singleton.mpr hv₃⟩
    obtain ⟨rfl, rfl⟩ := eq_of_try hb.is hk.is hb₀.is htail he.symm
    obtain ⟨rfl, _, _, hcc, hc₁', hcs', hfinal⟩ := chosen_of_catches hc₀.is hv₂ hv₃ hk hvalue
    obtain ⟨rfl, rfl⟩ := List.cons.inj hcc
    simp only [List.mem_cons, List.mem_append, Piece.node.injEq] at hc
    rcases hc with rfl | rfl | hc | hc
    · exact ⟨b, hb, rfl⟩
    · exact ⟨c₁, hc₁', rfl⟩
    · have hchosen := chosen_of_nodes (fun _ _ => id) hus hcs' hcs (ends_catchClauses hv₃) hc
      have hr := hus.rule_eq hc
      obtain ⟨r, v, x⟩ := c
      obtain rfl := hr
      exact hchosen
    · cases final with
      | none => cases hc
      | some f =>
        obtain rfl := Piece.node.inj (List.mem_singleton.mp hc)
        exact hfinal f rfl
  · obtain ⟨_, f', hf', -⟩ := hf.means
    have htail : grammar.Is tryTail t := by
      obtain ⟨z, w, rfl, hw⟩ := derives_after.mp hf'
      exact is_iff_spans.mpr ⟨_, .tail _ (.head _), z, w, rfl, Grammar.spans_singleton.mpr hw.is⟩
    obtain ⟨rfl, rfl⟩ := eq_of_try hb.is hk.is hb₀.is htail he.symm
    obtain ⟨rfl, hfinal⟩ := chosen_of_finally hk hvalue
    simp only [List.mem_cons, Piece.node.injEq, List.not_mem_nil, or_false] at hc
    rcases hc with rfl | rfl
    · exact ⟨b, hb, rfl⟩
    · exact hfinal

theorem passes_catchClause : catchClause.Passes := by
  rintro w x qs c h ⟨clause, hclause, rfl⟩ hc
  obtain ⟨u, us, v, ms, ts, i, b, rfl, rfl, hus, hu, hv, hx⟩ := h.catchClause
  obtain rfl := Item.catchClause.inj hx
  refine Node.isChosen_of_last hus hc ?_
  obtain ⟨a, ha, hclause⟩ := unfolds_preferred hclause
  obtain rfl := List.mem_singleton.mp ha
  obtain ⟨k, _, he, k', _, rfl, v₁, ms', _, rfl, hms, v₂, ts', _, rfl, hts, i', _, rfl, z, _, rfl,
    v₃, b', _, rfl, hb, rfl, hbb⟩ := hclause
  obtain ⟨_, b'', hb'', -⟩ := hv.means
  obtain rfl : v = v₃ := eq_of_last ha rfl (by decide) rfl hu hb''.is
    ⟨k, _, rfl, k', _, rfl, v₁, _, rfl, hms.is, v₂, _, rfl, hts.is, i', _, rfl, z, _, rfl, rfl⟩
    hb.is (by simpa using he)
  obtain ⟨-, -, -, rfl⟩ := CatchClause.mk.inj hbb
  exact ⟨b', hb, rfl⟩

theorem passes_finallyClause : finallyClause.Passes := by
  rintro w x qs c h ⟨y, u, rfl, hb⟩ hc
  obtain ⟨y', u', b, he, rfl, rfl⟩ := h.finallyClause
  obtain ⟨-, rfl⟩ := List.cons.inj he
  obtain rfl := Piece.node.inj (List.mem_singleton.mp hc)
  exact hb

theorem passes (r : Rule) : r.Passes := by
  cases r with
  | start => exact passes_start
  | methodDeclaration => exact passes_methodDeclaration
  | methodBody => exact passes_methodBody
  | block => exact passes_block
  | blockStatement => exact passes_blockStatement
  | statement => exact passes_statement
  | ifStatement => exact passes_ifStatement
  | whileStatement => exact passes_whileStatement
  | tryStatement => exact passes_tryStatement
  | catchClause => exact passes_catchClause
  | finallyClause => exact passes_finallyClause
  | _ => exact passes_of_isPlain rfl

end Rule

/-- All nodes within a chosen one are chosen. -/
theorem Node.IsWithin.isChosen {c n : Node} (h : c.IsWithin n) (hn : n.IsChosen) : c.IsChosen :=
  h.induct (fun ⟨_, hqs, hc⟩ hn => Rule.passes _ hqs hn hc) hn

theorem exists_node_of_parse {source : Text} {m : MethodDeclaration} (h : parse source = .ok m) :
    ∃ tokens, Scans .start (unescape source) tokens [] ∧
      Node.IsDerived ⟨.start, tokens.map (·.toLexeme), .method m⟩ ∧
      ∀ n : Node, n.IsWithin ⟨.start, tokens.map (·.toLexeme), .method m⟩ → n.IsChosen := by
  obtain ⟨tokens, hs, hm⟩ := preferred_of_parse h
  exact ⟨tokens, hs, exists_tree_of_derives hm.derives, fun n hn => hn.isChosen ⟨m, hm, rfl⟩⟩

end MemberAccess.Java.Ebnf
