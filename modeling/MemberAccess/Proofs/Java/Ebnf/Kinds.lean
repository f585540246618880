import MemberAccess.Proofs.Java.Comparison
import MemberAccess.Proofs.Java.Ebnf.Chosen

/-!
# Declarations and statements

Lexemes are of one kind of statement at most, with one exception: what compares three names can
declare a variable as well. In a block it is then a declaration, and as a branch of an `if` or the
body of a `while` a comparison.
-/

namespace MemberAccess.Java.Ebnf

open Nonterminal

/-- What a statement of a block can be. -/
def kinds : List Rule :=
  [.localVariableDeclaration, .expressionStatement, .block, .ifStatement, .whileStatement,
   .tryStatement, .returnStatement, .throwStatement, .emptyStatement]

/-- The lexemes `q₁ < q₂ > x;`. -/
def IsAngleStatement (w : List Lexeme) (q₁ q₂ : DottedName) (x : Text) : Prop :=
  ∃ u y, w = u ++ [⟨.mark .semicolon, y⟩] ∧ IsAngleRun u q₁ q₂ x

/-- The lexemes are a statement of a block of the kind. A declaration has a semicolon after it. -/
def IsOfKind : Rule → List Lexeme → Prop
  | .localVariableDeclaration, w => ∃ u y, w = u ++ [⟨.mark .semicolon, y⟩] ∧
    ∃ tree, Derives .localVariableDeclaration u tree
  | r, w => ∃ tree, Derives r w tree

/-- How the lexemes of a kind begin. -/
def kindFirst : Rule → List Terminal
  | .localVariableDeclaration => declaration.first
  | .block => [.mark .leftBrace]
  | .ifStatement => [.keyword .if_]
  | .whileStatement => [.keyword .while_]
  | .tryStatement => [.keyword .try_]
  | .returnStatement => [.keyword .return_]
  | .throwStatement => [.keyword .throw_]
  | .expressionStatement => expression.first
  | .emptyStatement => [.mark .semicolon]
  | _ => []

/-- Only declarations and expressions can begin alike. -/
theorem kindFirst_disjoint : ∀ r ∈ kinds, ∀ r' ∈ kinds, r ≠ r' →
    (r, r') ∉ [(.localVariableDeclaration, .expressionStatement),
      (.expressionStatement, .localVariableDeclaration)] →
    ∀ t ∈ kindFirst r, t ∉ kindFirst r' := by decide

/-- Where each right side of a rule begins with a terminal, so do the lexemes. -/
theorem Derives.exists_cons {r : Rule} {ks : List Terminal} {w : List Lexeme} {tree : Tree}
    (h : Derives r w tree) (hk : ∀ p ∈ r.productions, ∃ k ∈ ks, ∃ ps, p.parts = .skip k :: ps) :
    ∃ l v, w = l :: v ∧ l.terminal ∈ ks := by
  cases h with
  | intro hp hr =>
    obtain ⟨k, hk, ps, hps⟩ := hk _ hp
    obtain ⟨y, v, rfl, -⟩ := Reading.skip_iff.mp (hps ▸ hr)
    exact ⟨_, v, rfl, hk⟩

theorem exists_of_expressionStatement {w : List Lexeme} {tree : Tree}
    (h : Derives .expressionStatement w tree) :
    ∃ u y, w = u ++ [⟨.mark .semicolon, y⟩] ∧ grammar.Is expression u := by
  generalize hr : Rule.expressionStatement = r at h
  cases h with
  | intro hp h =>
    subst hr
    obtain rfl := List.mem_singleton.mp hp
    obtain ⟨u, _, _, _, rfl, -, hu, h₁⟩ := Reading.rule_iff.mp h
    obtain ⟨y, _, rfl, h₂⟩ := Reading.skip_iff.mp h₁
    obtain ⟨rfl, -⟩ := Reading.nil_iff.mp h₂
    exact ⟨u, y, rfl, hu.is_expression⟩

theorem Derives.is_declaration {u : List Lexeme} {tree : Tree}
    (h : Derives .localVariableDeclaration u tree) : grammar.Is declaration u := by
  obtain ⟨_, -, d, hd, -⟩ := h.exists_item
  exact hd.is

theorem IsOfKind.exists_cons {r : Rule} {w : List Lexeme} (h : IsOfKind r w) (hr : r ∈ kinds) :
    ∃ l v, w = l :: v ∧ l.terminal ∈ kindFirst r := by
  have hexpression : ∀ {n : Nonterminal} {u : List Lexeme} {y : Text}, grammar.Is n u →
      firstTable.nullable n = false → w = u ++ [⟨.mark .semicolon, y⟩] →
      ∃ l v, w = l :: v ∧ l.terminal ∈ n.first := by
    rintro n u y hu hn rfl
    obtain ⟨l, v, rfl, hl⟩ := firstTable.exists_cons_of_is hu hn
    exact ⟨l, _, rfl, hl⟩
  simp only [kinds, List.mem_cons, List.not_mem_nil, or_false] at hr
  rcases hr with rfl | rfl | rfl | rfl | rfl | rfl | rfl | rfl | rfl
  · obtain ⟨u, y, hw, _, hd⟩ := h
    exact hexpression hd.is_declaration rfl hw
  · obtain ⟨_, he⟩ := h
    obtain ⟨u, y, hw, hu⟩ := exists_of_expressionStatement he
    exact hexpression hu rfl hw
  all_goals
    obtain ⟨_, hd⟩ := h
    exact hd.exists_cons (by simp [Rule.productions, kindFirst])

/-- What can be both a declaration and an expression is two names in angle brackets with a name. -/
theorem isOfKind_and_isOfKind_iff {w : List Lexeme} :
    (IsOfKind .localVariableDeclaration w ∧ IsOfKind .expressionStatement w) ↔
      ∃ q₁ q₂ x, IsAngleStatement w q₁ q₂ x := by
  constructor
  · rintro ⟨⟨u, y, rfl, _, hd⟩, tree, he⟩
    obtain ⟨_, hx, -⟩ := he.exists_item
    have hs : Rule.statement.Image (u ++ [⟨.mark .semicolon, y⟩]) _ :=
      .choose (List.mem_map_of_mem (by decide)) rfl ⟨tree, he, hx⟩
    obtain ⟨tree', hs, -⟩ := hs
    obtain ⟨links, hl, hc⟩ := hs.exists_links
    have ha := (isAngles_of_declaration (z := y) (s := []) (r := []) hd.is_declaration
      (derives_chain_iff.mpr ⟨hl, hc⟩).is (by simp)).1
    obtain ⟨q₁, q₂, x, hq⟩ := exists_angleRun ha
    exact ⟨q₁, q₂, x, u, y, rfl, hq⟩
  · rintro ⟨q₁, q₂, x, u, y, rfl, h⟩
    obtain ⟨tree, hd, -⟩ : Rule.localVariableDeclaration.Image u (.statement _) :=
      isWritten_of_derives (n := declaration) (declaration_of_angleRun h)
    have he : Rule.expression.Image u (.expression _) :=
      isWritten_of_derives (n := expression) (expression_of_angleRun h)
    obtain ⟨tree', he', -⟩ : Rule.expressionStatement.Image (u ++ [⟨.mark .semicolon, y⟩]) _ :=
      .of_rule (.head _) rfl (.rule he (.skip .nil)) rfl
    exact ⟨⟨u, y, rfl, tree, hd⟩, tree', he'⟩

/-- Everything else is of one kind. -/
theorem IsOfKind.eq {r r' : Rule} {w : List Lexeme} (h : IsOfKind r w) (h' : IsOfKind r' w)
    (hr : r ∈ kinds) (hr' : r' ∈ kinds) (hw : ¬ ∃ q₁ q₂ x, IsAngleStatement w q₁ q₂ x) :
    r = r' := by
  by_contra hne
  by_cases hp : (r, r') ∈ [(.localVariableDeclaration, .expressionStatement),
      (.expressionStatement, .localVariableDeclaration)]
  · simp only [List.mem_cons, Prod.mk.injEq, List.not_mem_nil, or_false] at hp
    rcases hp with ⟨rfl, rfl⟩ | ⟨rfl, rfl⟩
    · exact hw (isOfKind_and_isOfKind_iff.mp ⟨h, h'⟩)
    · exact hw (isOfKind_and_isOfKind_iff.mp ⟨h', h⟩)
  · obtain ⟨l, v, rfl, hl⟩ := h.exists_cons hr
    obtain ⟨_, _, he, hl'⟩ := h'.exists_cons hr'
    obtain ⟨rfl, -⟩ := List.cons.inj he
    exact kindFirst_disjoint r hr r' hr' hne hp _ hl hl'

theorem Node.IsChosen.eq_angleDeclaration {w : List Lexeme} {item : Item} {q₁ q₂ : DottedName}
    {x : Text} (hn : IsChosen ⟨.blockStatement, w, item⟩) (h : IsAngleStatement w q₁ q₂ x) :
    item = .statement (angleDeclaration q₁ q₂ x) := by
  obtain ⟨u, y, rfl, hu⟩ := h
  obtain ⟨s, hs, rfl⟩ := hn
  have hd := hs.declaration (declaration_of_angleRun hu).is
  rw [Nonterminal.eq_angleDeclaration hu hd.derives]

theorem Node.IsChosen.eq_angleComparison {w : List Lexeme} {item : Item} {q₁ q₂ : DottedName}
    {x : Text} (hn : IsChosen ⟨.statement, w, item⟩) (h : IsAngleStatement w q₁ q₂ x) :
    item = .ofStatement (.expression (angleComparison q₁ q₂ x)) := by
  obtain ⟨u, y, rfl, hu⟩ := h
  obtain ⟨links, hl, hc, rfl⟩ := hn
  obtain ⟨l, v, hw, hfirst⟩ := firstTable.exists_cons_of_is
    (simpleStatement_of_angleRun (y := y) hu).is rfl
  rw [hw] at hl
  obtain ⟨s, rfl, hs⟩ := hl.of_simple Preferred.derives hc hfirst
  rw [← hw] at hs
  rw [Chain.statement_simple, Nonterminal.eq_angleComparison hu hs.derives]

/-- The lexemes of a method settle which of its statements are declarations. -/
structure SettlesKinds (w : List Lexeme) (m : MethodDeclaration) : Prop where
  isDerived : Node.IsDerived ⟨.start, w, .method m⟩
  /-- A statement of a block that can be both is a declaration. -/
  in_block : ∀ u item q₁ q₂ x, IsAngleStatement u q₁ q₂ x →
    Node.IsWithin ⟨.blockStatement, u, item⟩ ⟨.start, w, .method m⟩ →
    item = .statement (angleDeclaration q₁ q₂ x)
  /-- A branch of an `if` or the body of a `while` that can be both is a comparison. -/
  in_branch : ∀ u item q₁ q₂ x, IsAngleStatement u q₁ q₂ x →
    Node.IsWithin ⟨.statement, u, item⟩ ⟨.start, w, .method m⟩ →
    item = .ofStatement (.expression (angleComparison q₁ q₂ x))

/-- Only two names in angle brackets with a name can be read in two ways. Such a statement is a
declaration in a block, and a comparison where no declaration can stand. -/
theorem declaration_or_comparison :
    (∀ w, (IsOfKind .localVariableDeclaration w ∧ IsOfKind .expressionStatement w) ↔
      ∃ q₁ q₂ x, IsAngleStatement w q₁ q₂ x) ∧
    (∀ w, (¬ ∃ q₁ q₂ x, IsAngleStatement w q₁ q₂ x) → ∀ r ∈ kinds, ∀ r' ∈ kinds,
      IsOfKind r w → IsOfKind r' w → r = r') ∧
    ∀ source m, parse source = .ok m → ∃ tokens, Scans .start (unescape source) tokens [] ∧
      SettlesKinds (tokens.map (·.toLexeme)) m := by
  refine ⟨fun w => isOfKind_and_isOfKind_iff, fun w hw r hr r' hr' h h' => h.eq h' hr hr' hw, ?_⟩
  intro source m hm
  obtain ⟨tokens, hs, hd, hchosen⟩ := exists_node_of_parse hm
  exact ⟨tokens, hs, hd, fun u item q₁ q₂ x h hu => (hchosen _ hu).eq_angleDeclaration h,
    fun u item q₁ q₂ x h hu => (hchosen _ hu).eq_angleComparison h⟩

/-- A method with the same lexemes in its block and as a branch. -/
def angleStatements : Text := "void m() \x7b a.b < c > d; if (e) a.b < c > d; \x7d"

/-- Whether a block is a declaration and an `if` with an expression. -/
def isDeclarationAndIf : Block → Bool
  | .mk [.declaration .., .statement (.ifThen _ (.expression _))] => true
  | _ => false

theorem declaration_or_comparison_angleStatements :
    ∃ m, parse angleStatements = .ok m ∧
      (∃ ms t ds c e, m.body = some (.mk [.declaration ms t ds,
        .statement (.ifThen c (.expression e))])) ∧
      ∃ tokens, Scans .start (unescape angleStatements) tokens [] ∧
        SettlesKinds (tokens.map (·.toLexeme)) m := by
  obtain ⟨m, b, hm, hb, ho⟩ :=
    exists_body_of_parse (show ((parse angleStatements).toOption.bind (·.body)).any
      isDeclarationAndIf by decide +kernel)
  refine ⟨m, hm, ?_, declaration_or_comparison.2.2 _ _ hm⟩
  unfold isDeclarationAndIf at ho
  split at ho
  · exact ⟨_, _, _, _, _, hb⟩
  · cases ho

end MemberAccess.Java.Ebnf
