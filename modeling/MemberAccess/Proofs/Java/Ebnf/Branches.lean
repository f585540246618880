import MemberAccess.Proofs.Java.Ebnf.Chosen
import MemberAccess.Proofs.Java.Ebnf.Layout
import MemberAccess.Proofs.Java.Ebnf.Substatement

/-!
# Which `if` an `else` belongs to

An `if` takes the last `else` after its condition that has a statement on either side, if there is
one, wherever it stands in a method. This is not the nearest `if` of an `else`: where two of them
could take it, the outer one does.
-/

namespace MemberAccess.Java.Ebnf

open Nonterminal

/-- The lexemes are those of an `if` with the condition `u`, and of what comes after it. -/
def IfParts (w u t : List Lexeme) : Prop :=
  (∃ tree, Derives .expression u tree) ∧ ∃ a b z,
    w = ⟨.keyword .if_, a⟩ :: ⟨.mark .leftParenthesis, b⟩ :: (u ++ ⟨.mark .rightParenthesis, z⟩ :: t)

/-- The lexemes are an `else` with a statement on either side. -/
def SplitsAt (t t₁ t₂ : List Lexeme) : Prop :=
  ∃ e, t = t₁ ++ ⟨.keyword .else_, e⟩ :: t₂ ∧ (∃ tree, Derives .statement t₁ tree) ∧
    ∃ tree, Derives .statement t₂ tree

/-- No other such `else` comes later. -/
def IsLastSplit (t t₁ t₂ : List Lexeme) : Prop :=
  SplitsAt t t₁ t₂ ∧ ∀ u₁ u₂, SplitsAt t u₁ u₂ → u₁.length ≤ t₁.length

/-- The branches of an `if` with the condition `u` and with `t` after it: the two sides of the last
`else` in `t` with a statement on either side, or all of `t` if there is none. -/
structure HasBranches (w u t : List Lexeme) (x : Item) : Prop where
  of_split : (∃ t₁ t₂, SplitsAt t t₁ t₂) → ∃ t₁ t₂ c s₁ s₂, IsLastSplit t t₁ t₂ ∧
    x = .ofStatement (.ifThenElse c s₁ s₂) ∧ ∀ qs, Node.IsMadeOf ⟨.ifStatement, w, x⟩ qs ↔
      qs = [.node ⟨.expression, u, .expression c⟩, .node ⟨.statement, t₁, .ofStatement s₁⟩,
        .node ⟨.statement, t₂, .ofStatement s₂⟩]
  of_no_split : (∀ t₁ t₂, ¬ SplitsAt t t₁ t₂) → ∃ c s, x = .ofStatement (.ifThen c s) ∧
    ∀ qs, Node.IsMadeOf ⟨.ifStatement, w, x⟩ qs ↔
      qs = [.node ⟨.expression, u, .expression c⟩, .node ⟨.statement, t, .ofStatement s⟩]

/-- The condition of an `if` is determined by its lexemes. -/
theorem IfParts.eq {w u t u' t' : List Lexeme} (h : IfParts w u t) (h' : IfParts w u' t') :
    u = u' ∧ t = t' := by
  obtain ⟨⟨_, hu⟩, a, b, z, rfl⟩ := h
  obtain ⟨⟨_, hu'⟩, a', b', z', he⟩ := h'
  simp only [List.cons.injEq] at he
  obtain ⟨rfl, -, rfl⟩ := eq_of_condition hu.is_expression hu'.is_expression he.2.2
  exact ⟨rfl, rfl⟩

/-- An `else` with a statement on either side splits the links in any reading. -/
theorem SplitsAt.exists_links {P : (n : Nonterminal) → List Lexeme → n.Value → Prop}
    {t t₁ t₂ : List Lexeme} {links : Chain} (h : SplitsAt t t₁ t₂)
    (hP : ∀ {n w v}, P n w v → n.Derives w v) (hl : Linked P t links) :
    ∃ l₁ l₂, links = l₁ ++ .elseWord :: l₂ ∧ Linked P t₁ l₁ ∧ Linked P t₂ l₂ ∧
      Chain.closes 0 l₁ ∧ Chain.closes 0 l₂ := by
  obtain ⟨e, rfl, ⟨_, h₁⟩, _, h₂⟩ := h
  obtain ⟨k₁, hk₁, hc₁⟩ := h₁.exists_links
  obtain ⟨k₂, hk₂, hc₂⟩ := h₂.exists_links
  obtain ⟨l₁, l₂, hs, hl₁, hl₂, he₁, he₂⟩ := hl.exists_split hP hk₁ hk₂
  exact ⟨l₁, l₂, hs, hl₁, hl₂, Chain.closes_of_kinds he₁ hc₁, Chain.closes_of_kinds he₂ hc₂⟩

/-- A statement can end before an `else`. -/
theorem heads_else {e : Text} {t : List Lexeme} :
    Heads LinkKind.follow (⟨.keyword .else_, e⟩ :: t) :=
  heads_cons.mpr (show Terminal.keyword .else_ ∈ LinkKind.follow by decide)

/-- The sides of the last `else` of the links are those of the last `else` of the lexemes. -/
theorem isLastSplit_of_lastSplit? {t₁ t₂ : List Lexeme} {e : Text} {links l₁ l₂ : Chain}
    (hl : Linked Preferred (t₁ ++ ⟨.keyword .else_, e⟩ :: t₂) links) (hl₁ : Linked Preferred t₁ l₁)
    (hs : Chain.lastSplit? links = some (l₁, l₂)) (h₁ : ∃ tree, Derives .statement t₁ tree)
    (h₂ : ∃ tree, Derives .statement t₂ tree) :
    IsLastSplit (t₁ ++ ⟨.keyword .else_, e⟩ :: t₂) t₁ t₂ := by
  refine ⟨⟨e, rfl, h₁, h₂⟩, fun u₁ u₂ hu => ?_⟩
  obtain ⟨k₁, k₂, hk, hk₁, -, hc₁, hc₂⟩ := hu.exists_links Preferred.derives hl
  obtain ⟨e', he, -⟩ := hu
  obtain ⟨_, _, t, -, rfl, -⟩ := (hk₁.mono Preferred.derives).align hl₁ Preferred.derives he.symm
    heads_else heads_else (Chain.length_le_of_lastSplit? hs hk hc₁ hc₂)
  simp

section
variable {w u t : List Lexeme} {x : Item} {qs qs' : List Piece}

theorem pieces_unique (hn : Node.IsChosen ⟨.ifStatement, w, x⟩)
    (h : Node.IsMadeOf ⟨.ifStatement, w, x⟩ qs) (h' : Node.IsMadeOf ⟨.ifStatement, w, x⟩ qs') :
    qs = qs' := by
  obtain ⟨a, b, u, c, z, t, links, rfl, ⟨tree, hu, -⟩, hl, hif⟩ := Rule.pieces_of_isChosen h hn
  obtain ⟨a', b', u', c', z', t', links', he, ⟨tree', hu', -⟩, hl', hif'⟩ :=
    Rule.pieces_of_isChosen h' hn
  obtain ⟨rfl, rfl⟩ : u = u' ∧ t = t' :=
    IfParts.eq ⟨⟨tree, hu⟩, a, b, z, rfl⟩ ⟨⟨tree', hu'⟩, a', b', z', he⟩
  obtain rfl := hl.unique hl'
  rcases hif with ⟨hs, -, hx, rfl⟩ | ⟨l₁, l₂, t₁, e, t₂, hs, ht, hl₁, -, hx, rfl⟩ <;>
    rcases hif' with ⟨hs', -, hx', rfl⟩ | ⟨l₁', l₂', t₁', e', t₂', hs', ht', hl₁', -, hx', rfl⟩
  · obtain ⟨rfl, -⟩ := Statement.ifThen.inj (Item.ofStatement_inj.mp (hx.symm.trans hx'))
    rfl
  · cases hs.symm.trans hs'
  · cases hs.symm.trans hs'
  · obtain ⟨rfl, -⟩ := Statement.ifThenElse.inj (Item.ofStatement_inj.mp (hx.symm.trans hx'))
    obtain ⟨rfl, rfl⟩ := Prod.mk.inj (Option.some.inj (hs.symm.trans hs'))
    have het := ht.symm.trans ht'
    obtain rfl := (hl₁.mono Preferred.derives).eq_of_length (hl₁'.mono Preferred.derives) het
      heads_else heads_else rfl
    obtain ⟨-, rfl⟩ := List.cons.inj (List.append_cancel_left het)
    rfl

theorem Node.IsChosen.hasBranches (hn : IsChosen ⟨.ifStatement, w, x⟩)
    (hd : IsDerived ⟨.ifStatement, w, x⟩) :
    ∃ u t, (∀ u' t', IfParts w u' t' ↔ u' = u ∧ t' = t) ∧ HasBranches w u t x := by
  obtain ⟨qs, hq⟩ := hd.exists_isMadeOf
  have honly : ∀ qs', IsMadeOf ⟨.ifStatement, w, x⟩ qs' ↔ qs' = qs :=
    fun qs' => ⟨fun h => pieces_unique hn h hq, fun h => h ▸ hq⟩
  obtain ⟨a, b, u, c, z, t, links, hw, ⟨tree, hu, -⟩, hl, hif⟩ := Rule.pieces_of_isChosen hq hn
  have hparts : IfParts w u t := ⟨⟨tree, hu⟩, a, b, z, hw⟩
  refine ⟨u, t, fun u' t' => ⟨fun h => h.eq hparts, ?_⟩, ?_, ?_⟩
  · rintro ⟨rfl, rfl⟩
    exact hparts
  · rintro ⟨t₁, t₂, ht⟩
    rcases hif with ⟨hs, -⟩ | ⟨l₁, l₂, t₁, e, t₂, hs, rfl, hl₁, -, hx, rfl⟩
    · obtain ⟨l₁, l₂, hlinks, -, -, hc₁, hc₂⟩ := ht.exists_links Preferred.derives hl
      obtain ⟨_, hsome⟩ := Chain.exists_lastSplit? hlinks hc₁ hc₂
      cases hs.symm.trans hsome
    · obtain ⟨tree₁, ht₁, -⟩ := IsChild.isDerived ⟨_, hq, .tail _ (.head _)⟩
      obtain ⟨tree₂, ht₂, -⟩ := IsChild.isDerived ⟨_, hq, .tail _ (.tail _ (.head _))⟩
      exact ⟨t₁, t₂, c, _, _, isLastSplit_of_lastSplit? hl hl₁ hs ⟨tree₁, ht₁⟩ ⟨tree₂, ht₂⟩, hx,
        honly⟩
  · intro hno
    rcases hif with ⟨-, -, hx, rfl⟩ | ⟨l₁, l₂, t₁, e, t₂, hs, rfl, hl₁, -, hx, rfl⟩
    · exact ⟨c, _, hx, honly⟩
    · obtain ⟨tree₁, ht₁, -⟩ := IsChild.isDerived ⟨_, hq, .tail _ (.head _)⟩
      obtain ⟨tree₂, ht₂, -⟩ := IsChild.isDerived ⟨_, hq, .tail _ (.tail _ (.head _))⟩
      exact absurd ⟨e, rfl, ⟨tree₁, ht₁⟩, tree₂, ht₂⟩ (hno t₁ t₂)

end

theorem ChosenStatement.unique {w : List Lexeme} {x x' : Item} (h : ChosenStatement w x)
    (h' : ChosenStatement w x') : x = x' := by
  obtain ⟨links, hl, -, rfl⟩ := h
  obtain ⟨links', hl', -, rfl⟩ := h'
  rw [hl.unique hl']

/-- The lexemes of a method settle which `if` each `else` belongs to. -/
structure SettlesElse (w : List Lexeme) (m : MethodDeclaration) : Prop where
  isDerived : Node.IsDerived ⟨.start, w, .method m⟩
  /-- Each `if` of the method has its node. -/
  exists_node : ∀ s, m.Has s → s.IsIf →
    ∃ v, Node.IsWithin ⟨.ifStatement, v, .ofStatement s⟩ ⟨.start, w, .method m⟩
  /-- The branches of each are the sides of the last `else` with a statement on either side. -/
  hasBranches : ∀ v x, Node.IsWithin ⟨.ifStatement, v, x⟩ ⟨.start, w, .method m⟩ →
    ∃ u t, (∀ u' t', IfParts v u' t' ↔ u' = u ∧ t' = t) ∧ HasBranches v u t x
  /-- The same lexemes are the same statement wherever they stand. -/
  item_eq : ∀ v x x', Node.IsWithin ⟨.statement, v, x⟩ ⟨.start, w, .method m⟩ →
    Node.IsWithin ⟨.statement, v, x'⟩ ⟨.start, w, .method m⟩ → x = x'
  /-- In all derivations the statements of blocks are at the same places. -/
  exists_sites : ∃ sites, (∀ tree, Derives .start w tree → LaidOut .start w (tree, sites)) ∧
    ∀ tree sites', LaidOut .start w (tree, sites') → sites' = sites

/-- Which `if` an `else` belongs to is settled by one rule in all of a parsed method. -/
theorem settlesElse_of_parse {source : Text} {m : MethodDeclaration} (h : parse source = .ok m) :
    ∃ tokens, Scans .start (unescape source) tokens [] ∧
      SettlesElse (tokens.map (·.toLexeme)) m := by
  obtain ⟨tokens, hs, hd, hchosen⟩ := exists_node_of_parse h
  refine ⟨tokens, hs, hd, ?_, ?_, ?_, ?_⟩
  · intro s hm hif
    obtain ⟨v, hv⟩ := Node.contains_of_has hd hm
    exact ⟨v, hv.head (Node.exists_ifStatement (hv.isDerived hd) hif)⟩
  · exact fun v x hv => (hchosen _ hv).hasBranches (hv.isDerived hd)
  · exact fun v x x' hv hv' => ChosenStatement.unique (hchosen _ hv) (hchosen _ hv')
  · obtain ⟨tree, htree, -⟩ := hd
    obtain ⟨sites, hsites⟩ := htree.exists_laidOut
    refine ⟨sites, fun tree' htree' => ?_, fun tree' sites' h' => h'.eq hsites⟩
    obtain ⟨sites', hsites'⟩ := htree'.exists_laidOut
    exact hsites'.eq hsites ▸ hsites'

/-- A method with one `else` for two `if`. -/
def danglingElse : Text := "void m() \x7b if (a) if (b) c(); else d(); \x7d"

/-- Whether a block is one `if` with an `else` around one without. -/
def isOuterElse : Block → Bool
  | .mk [.statement (.ifThenElse _ (.ifThen _ _) _)] => true
  | _ => false

/-- The outer `if` takes it. -/
theorem settlesElse_danglingElse :
    ∃ m, parse danglingElse = .ok m ∧
      (∃ a b c d, m.body = some (.mk [.statement (.ifThenElse a (.ifThen b c) d)])) ∧
      ∃ tokens, Scans .start (unescape danglingElse) tokens [] ∧
        SettlesElse (tokens.map (·.toLexeme)) m := by
  obtain ⟨m, b, hm, hb, ho⟩ :=
    exists_body_of_parse (show ((parse danglingElse).toOption.bind (·.body)).any isOuterElse by
      decide +kernel)
  refine ⟨m, hm, ?_, settlesElse_of_parse hm⟩
  unfold isOuterElse at ho
  split at ho
  · exact ⟨_, _, _, _, hb⟩
  · cases ho

end MemberAccess.Java.Ebnf
