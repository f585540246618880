import MemberAccess.Proofs.Java.Ebnf.Pieces

/-!
# The statements of a method and their nodes

Wherever a statement stands in a method, however deep, a derivation of the method has a node for
it.
-/

namespace MemberAccess.Java

namespace Block

def statements : Block → List Statement
  | mk ss => ss.filterMap BlockStatement.statement?

end Block

namespace CatchClause

def body : CatchClause → Block
  | mk _ _ _ b => b

end CatchClause

namespace Statement

def parts : Statement → List Statement
  | block b => b.statements
  | ifThen _ s | while_ _ s => [s]
  | ifThenElse _ s s' => [s, s']
  | try_ b cs final =>
    (b :: (cs.map CatchClause.body ++ final.toList)).flatMap Block.statements
  | expression _ | return_ _ | throw_ _ | empty => []

def IsIf : Statement → Prop
  | ifThen .. | ifThenElse .. => True
  | _ => False

end Statement

/-- The statement stands somewhere in the method. -/
inductive MethodDeclaration.Has (m : MethodDeclaration) : Statement → Prop where
  | body {b : Block} {s : Statement} : m.body = some b → s ∈ b.statements → m.Has s
  | part {s s' : Statement} : m.Has s → s' ∈ s.parts → m.Has s'

namespace Ebnf

namespace Node
variable {c n : Node} {w : List Lexeme} {s s' : Statement} {b : Block} {m : MethodDeclaration}

/-- The node of the statement stands somewhere in the node. -/
def Contains (n : Node) (s : Statement) : Prop :=
  ∃ w, IsWithin ⟨.statement, w, .ofStatement s⟩ n

theorem Contains.of_child {qs : List Piece} (hq : n.IsMadeOf qs) (hc : .node c ∈ qs)
    (h : c.Contains s) : n.Contains s := by
  obtain ⟨w, hw⟩ := h
  exact ⟨w, hw.tail ⟨qs, hq, hc⟩⟩

theorem contains_of_mem {qs : List Piece} (hq : n.IsMadeOf qs)
    (hc : .node ⟨.statement, w, .ofStatement s⟩ ∈ qs) : n.Contains s :=
  .of_child hq hc ⟨w, .refl⟩

theorem contains_of_block (h : IsDerived ⟨.block, w, .ofBlock b⟩) (hs : s ∈ b.statements) :
    Contains ⟨.block, w, .ofBlock b⟩ s := by
  obtain ⟨qs, hq⟩ := h.exists_isMadeOf
  obtain ⟨y, u, z, ss, -, hu, hss, hb⟩ := hq.block
  obtain rfl := Item.ofBlock_inj.mp hb
  obtain ⟨s', hs', hss'⟩ := List.mem_filterMap.mp hs
  cases s' with
  | declaration => cases hss'
  | statement s' =>
    obtain rfl := Option.some.inj hss'
    obtain ⟨v, hv⟩ := hu.exists_node (n := .blockStatement) hss hs'
    refine .of_child hq hv ?_
    obtain ⟨qs', hq'⟩ := (IsChild.isDerived ⟨qs, hq, hv⟩).exists_isMadeOf
    rcases hq'.blockStatement with ⟨_, _, d, -, -, hd, hx⟩ | ⟨s, rfl, -⟩
    · obtain ⟨a, ha, hd⟩ := Nonterminal.derives_iff.mp hd
      obtain rfl := List.mem_singleton.mp ha
      obtain ⟨_, _, _, -, -, _, _, _, -, -, _, _, _, -, -, _, _, _, -, -, -, rfl⟩ := hd
      cases hx
    · exact contains_of_mem hq' (.head _)

abbrev endRules : List Rule :=
  [.returnStatement, .throwStatement, .expressionStatement, .emptyStatement]

theorem parts_eq_nil {r : Rule} {qs : List Piece} (hr : r ∈ endRules)
    (h : IsMadeOf ⟨r, w, .ofStatement s⟩ qs) : s.parts = [] := by
  obtain ⟨p, hp, -, hx⟩ := h
  have hs : ∀ {s' : Statement}, some (Item.ofStatement s') = some (.ofStatement s) →
      s'.parts = [] → s.parts = [] := by
    rintro s' hs hp
    exact Item.ofStatement_inj.mp (Option.some.inj hs) ▸ hp
  simp only [endRules, List.mem_cons, List.not_mem_nil, or_false] at hr
  rcases hr with rfl | rfl | rfl | rfl <;>
    (obtain rfl := List.mem_singleton.mp hp; rw [Production.item_of_rule rfl] at hx)
  · simp only [Action.ofRule] at hx
    unfold Action.returnStatement at hx
    split at hx
    · exact hs hx rfl
    · exact hs hx rfl
    · cases hx
  · obtain ⟨_, -, he⟩ := Option.bind_eq_some_iff.mp hx
    obtain ⟨e, -, he⟩ := Option.bind_eq_some_iff.mp he
    exact hs he rfl
  · obtain ⟨_, -, he⟩ := Option.bind_eq_some_iff.mp hx
    obtain ⟨e, -, he⟩ := Option.bind_eq_some_iff.mp he
    exact hs he rfl
  · exact hs hx rfl

theorem contains_of_ifStatement (h : IsDerived ⟨.ifStatement, w, .ofStatement s⟩)
    (hs : s' ∈ s.parts) : Contains ⟨.ifStatement, w, .ofStatement s⟩ s' := by
  obtain ⟨qs, hq⟩ := h.exists_isMadeOf
  obtain ⟨_, _, _, c, _, t, -, -, hif⟩ := hq.ifStatement
  rcases hif with ⟨s₁, -, hx, rfl⟩ | ⟨t₁, _, t₂, s₁, s₂, -, -, -, hx, rfl⟩
  · obtain rfl := Item.ofStatement_inj.mp hx
    obtain rfl := List.mem_singleton.mp hs
    exact contains_of_mem hq (.tail _ (.head _))
  · obtain rfl := Item.ofStatement_inj.mp hx
    rcases List.mem_pair.mp hs with rfl | rfl
    · exact contains_of_mem hq (.tail _ (.head _))
    · exact contains_of_mem hq (.tail _ (.tail _ (.head _)))

theorem contains_of_whileStatement (h : IsDerived ⟨.whileStatement, w, .ofStatement s⟩)
    (hs : s' ∈ s.parts) : Contains ⟨.whileStatement, w, .ofStatement s⟩ s' := by
  obtain ⟨qs, hq⟩ := h.exists_isMadeOf
  obtain ⟨_, _, _, c, _, t, s₁, -, -, hx, rfl⟩ := hq.whileStatement
  obtain rfl := Item.ofStatement_inj.mp hx
  obtain rfl := List.mem_singleton.mp hs
  exact contains_of_mem hq (.tail _ (.head _))

theorem contains_of_catchClause {c : CatchClause} (h : IsDerived ⟨.catchClause, w, .catchClause c⟩)
    (hs : s ∈ c.body.statements) : Contains ⟨.catchClause, w, .catchClause c⟩ s := by
  obtain ⟨qs, hq⟩ := h.exists_isMadeOf
  obtain ⟨u, us, v, ms, ts, i, b, -, rfl, -, -, hv, hx⟩ := hq.catchClause
  obtain rfl := Item.catchClause.inj hx
  exact .of_child hq (List.mem_append_right _ (.head _)) (contains_of_block hv hs)

theorem contains_of_finallyClause (h : IsDerived ⟨.finallyClause, w, .ofBlock b⟩)
    (hs : s ∈ b.statements) : Contains ⟨.finallyClause, w, .ofBlock b⟩ s := by
  obtain ⟨qs, hq⟩ := h.exists_isMadeOf
  obtain ⟨y, u, b', -, rfl, hx⟩ := hq.finallyClause
  obtain rfl := Item.ofBlock_inj.mp hx
  exact .of_child hq (.head _) (contains_of_block (IsChild.isDerived ⟨_, hq, .head _⟩) hs)

theorem contains_of_tryStatement (h : IsDerived ⟨.tryStatement, w, .ofStatement s⟩)
    (hs : s' ∈ s.parts) : Contains ⟨.tryStatement, w, .ofStatement s⟩ s' := by
  obtain ⟨qs, hq⟩ := h.exists_isMadeOf
  obtain ⟨y, u, b, t, rest, cs, final, -, hu, hx, rfl, htail⟩ := hq.tryStatement
  obtain rfl := Item.ofStatement_inj.mp hx
  have hchild : ∀ {c : Node}, .node c ∈ rest → (c.IsDerived → c.Contains s') →
      Contains ⟨.tryStatement, w, .ofStatement (.try_ b cs final)⟩ s' := by
    intro c hc hcs
    have hc := List.mem_cons_of_mem (.node ⟨.block, u, .ofBlock b⟩) hc
    exact .of_child hq hc (hcs (IsChild.isDerived ⟨_, hq, hc⟩))
  simp only [Statement.parts, List.flatMap_cons, List.flatMap_append, List.mem_append] at hs
  rcases hs with hs | hs | hs
  · exact .of_child hq (.head _) (contains_of_block hu hs)
  · obtain ⟨b', hb', hsb⟩ := List.mem_flatMap.mp hs
    obtain ⟨c, hc, rfl⟩ := List.mem_map.mp hb'
    rcases htail with ⟨v₁, v₂, v₃, c₁, cs', us, -, rfl, -, hus, hcs, -, rfl⟩ | ⟨f, rfl, -⟩
    · rcases List.mem_cons.mp hc with rfl | hc
      · exact hchild (.head _) fun h => contains_of_catchClause h hsb
      · obtain ⟨v, hv⟩ := hus.exists_node (n := .catchClause) hcs hc
        exact hchild (.tail _ (List.mem_append_left _ hv)) fun h => contains_of_catchClause h hsb
    · cases hc
  · obtain ⟨f, hf, hsf⟩ := List.mem_flatMap.mp hs
    obtain rfl := Option.mem_toList.mp hf
    rcases htail with ⟨_, _, _, _, _, _, -, -, -, -, -, -, rfl⟩ | ⟨f', -, hff, -, rfl⟩
    · exact hchild (.tail _ (List.mem_append_right _ (.head _)))
        fun h => contains_of_finallyClause h hsf
    · obtain rfl := Option.some.inj hff
      exact hchild (.head _) fun h => contains_of_finallyClause h hsf

/-- Each statement in a statement has its node in the node of that statement. -/
theorem contains_of_part (h : IsDerived ⟨.statement, w, .ofStatement s⟩) (hs : s' ∈ s.parts) :
    Contains ⟨.statement, w, .ofStatement s⟩ s' := by
  obtain ⟨qs, hq⟩ := h.exists_isMadeOf
  obtain ⟨r, hr, rfl⟩ := hq.statement
  have hd : IsDerived ⟨r, w, .ofStatement s⟩ := IsChild.isDerived ⟨_, hq, .head _⟩
  refine .of_child hq (.head _) ?_
  simp only [List.mem_cons, List.not_mem_nil, or_false] at hr
  rcases hr with rfl | rfl | rfl | rfl | hr
  · obtain ⟨b, -, -, hb, -⟩ := hd.means
    obtain rfl := Item.ofStatement_inj.mp hb
    exact contains_of_block hd hs
  · exact contains_of_ifStatement hd hs
  · exact contains_of_whileStatement hd hs
  · exact contains_of_tryStatement hd hs
  · obtain ⟨qs, hq'⟩ := hd.exists_isMadeOf
    rw [parts_eq_nil (by simpa using hr) hq'] at hs
    cases hs

/-- A statement of a method has its node in each derivation of the method. -/
theorem contains_of_has (h : IsDerived ⟨.start, w, .method m⟩) (hs : m.Has s) :
    Contains ⟨.start, w, .method m⟩ s := by
  induction hs with
  | @body b s hb hs =>
    obtain ⟨qs, hq⟩ := h.exists_isMadeOf
    obtain rfl := hq.start
    refine .of_child hq (.head _) ?_
    obtain ⟨qs, hq'⟩ := (IsChild.isDerived ⟨_, hq, .head _⟩ : IsDerived ⟨_, _, _⟩).exists_isMadeOf
    obtain ⟨u, us, v, m', rfl, rfl, -, -, hv, hx⟩ := hq'.methodDeclaration
    obtain rfl := Item.method.inj hx
    refine .of_child hq' (List.mem_append_right _ (.head _)) ?_
    obtain ⟨qs, hqb⟩ := (show IsDerived ⟨.methodBody, v, .ofBody m.body⟩ from hv).exists_isMadeOf
    rw [hb] at hqb ⊢
    rcases hqb.methodBody with ⟨b', rfl, hx⟩ | ⟨-, hx⟩
    · obtain rfl := Item.ofBlock_inj.mp hx
      exact .of_child hqb (.head _) (contains_of_block (IsChild.isDerived ⟨_, hqb, .head _⟩) hs)
    · cases hx
  | @part s s' _ hs ih =>
    obtain ⟨v, hv⟩ := ih
    obtain ⟨v', hv'⟩ := contains_of_part (hv.isDerived h) hs
    exact ⟨v', hv'.trans hv⟩

/-- The node of an `if` has a node of the rule for `if`. -/
theorem exists_ifStatement (h : IsDerived ⟨.statement, w, .ofStatement s⟩) (hs : s.IsIf) :
    IsChild ⟨.ifStatement, w, .ofStatement s⟩ ⟨.statement, w, .ofStatement s⟩ := by
  obtain ⟨qs, hq⟩ := h.exists_isMadeOf
  obtain ⟨r, hr, rfl⟩ := hq.statement
  have hd : IsDerived ⟨r, w, .ofStatement s⟩ := IsChild.isDerived ⟨_, hq, .head _⟩
  have hif : s.parts ≠ [] := by
    cases s with
    | ifThen | ifThenElse => simp [Statement.parts]
    | _ => cases hs
  obtain ⟨qs, hq'⟩ := hd.exists_isMadeOf
  simp only [List.mem_cons, List.not_mem_nil, or_false] at hr
  rcases hr with rfl | rfl | rfl | rfl | hr
  · obtain ⟨b, -, -, hb, -⟩ := hd.means
    obtain rfl := Item.ofStatement_inj.mp hb
    cases hs
  · exact ⟨_, hq, .head _⟩
  · obtain ⟨_, _, _, _, _, _, _, -, -, hx, -⟩ := hq'.whileStatement
    obtain rfl := Item.ofStatement_inj.mp hx
    cases hs
  · obtain ⟨_, _, _, _, _, _, _, -, -, hx, -⟩ := hq'.tryStatement
    obtain rfl := Item.ofStatement_inj.mp hx
    cases hs
  · exact absurd (parts_eq_nil (by simpa using hr) hq') hif

end Node

end Ebnf

end MemberAccess.Java
