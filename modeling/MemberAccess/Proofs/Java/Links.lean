import MemberAccess.Proofs.Java.Chain
import MemberAccess.Proofs.Java.Coverage

/-!
# The lexemes of a statement and its links

A statement is read from the lexemes of its links one after the other. They tell where each link
ends and of what kind it is, so where one reading of a statement has an `else`, any other has one
too. The statement that the links of a chain are is made of these links again.
-/

namespace MemberAccess.Java

/-- What a link is, whatever stands in it. -/
inductive LinkKind where
  | ifHead | whileHead | simple | elseWord
  deriving DecidableEq

namespace LinkKind

def first : LinkKind → List Terminal
  | ifHead => [.keyword .if_]
  | whileHead => [.keyword .while_]
  | simple => Nonterminal.simpleStatement.first
  | elseWord => [.keyword .else_]

def all : List LinkKind := [ifHead, whileHead, simple, elseWord]

theorem mem_all (k : LinkKind) : k ∈ all := by cases k <;> decide

theorem eq_of_mem_first {t : Terminal} {k k' : LinkKind} (h : t ∈ k.first) (h' : t ∈ k'.first) :
    k = k' := by
  have hd : ∀ k ∈ all, ∀ k' ∈ all, k ≠ k' → ∀ t ∈ k.first, t ∉ k'.first := by decide
  by_contra hne
  exact hd k (mem_all k) k' (mem_all k') hne t h h'

/-- What can follow a statement without a head. -/
abbrev follow : List Terminal := Nonterminal.follow .plain .simpleStatement

theorem first_subset_follow (k : LinkKind) : k.first ⊆ follow := by
  have h : ∀ k ∈ all, k.first ⊆ follow := by decide
  exact h k (mem_all k)

end LinkKind

def Link.kind : Link → LinkKind
  | ifHead _ => .ifHead
  | whileHead _ => .whileHead
  | simple _ => .simple
  | elseWord => .elseWord

namespace Chain

def kinds (links : Chain) : List LinkKind := links.map Link.kind

theorem exists_of_kinds_cons {link : Link} {links links' : Chain}
    (h : kinds (link :: links) = kinds links') :
    ∃ link' rest, links' = link' :: rest ∧ link.kind = link'.kind ∧ kinds links = kinds rest := by
  cases links' with
  | nil => cases h
  | cons link' rest => exact ⟨link', rest, rfl, List.cons.inj h⟩

/-- Whether links are a statement does not depend on what stands in them. -/
theorem closes_of_kinds {k : Nat} {links links' : Chain} (h : kinds links = kinds links')
    (hc : closes k links) : closes k links' := by
  fun_induction closes k links generalizing links' with
  | case1 k c rest ih =>
    obtain ⟨link', rest', rfl, hk, hrest⟩ := exists_of_kinds_cons h
    cases link' with
    | ifHead _ => exact ih hrest hc
    | _ => cases hk
  | case2 k c rest ih =>
    obtain ⟨link', rest', rfl, hk, hrest⟩ := exists_of_kinds_cons h
    cases link' with
    | whileHead _ =>
      have hc' : closes k rest' := ih hrest hc
      exact hc'
    | _ => cases hk
  | case3 k s =>
    obtain ⟨link', rest', rfl, hk, hrest⟩ := exists_of_kinds_cons h
    cases List.map_eq_nil_iff.mp hrest.symm
    cases link' with
    | simple _ => rfl
    | _ => cases hk
  | case4 s rest => cases hc
  | case5 s rest k ih =>
    obtain ⟨link', rest', rfl, hk, hrest⟩ := exists_of_kinds_cons h
    obtain ⟨word, rest'', rfl, hw, hrest'⟩ := exists_of_kinds_cons hrest
    cases link' with
    | simple _ =>
      cases word with
      | elseWord => exact ih hrest' hc
      | _ => cases hw
    | _ => cases hk
  | case6 => cases hc

theorem splits_increase (links : Chain) :
    (splits links).Pairwise fun s t => s.1.length < t.1.length := by
  have hcons : ∀ (link : Link) {ss : List (Chain × Chain)},
      (ss.Pairwise fun s t => s.1.length < t.1.length) →
      (ss.map fun s => (link :: s.1, s.2)).Pairwise fun s t => s.1.length < t.1.length :=
    fun link ss h => List.pairwise_map.mpr (h.imp fun hlt => Nat.succ_lt_succ hlt)
  induction links with
  | nil => exact .nil
  | cons link links ih =>
    cases link with
    | elseWord =>
      refine List.pairwise_cons.mpr ⟨fun s hs => ?_, hcons _ ih⟩
      obtain ⟨t, -, rfl⟩ := List.mem_map.mp hs
      exact Nat.succ_pos _
    | _ => exact hcons _ ih

/-- No `else` with a statement on either side comes after the one that is found. -/
theorem length_le_of_lastSplit? {links a b a' b' : Chain} (h : lastSplit? links = some (a, b))
    (hs : links = a' ++ .elseWord :: b') (ha : closes 0 a') (hb : closes 0 b') :
    a'.length ≤ a.length := by
  obtain ⟨-, later, earlier, he, hn⟩ := List.find?_eq_some_iff_append.mp h
  have hm : (a', b') ∈ (splits links).reverse := List.mem_reverse.mpr (mem_splits.mpr hs)
  rw [he] at hm
  have hsorted := List.pairwise_reverse.mpr (splits_increase links)
  rw [he] at hsorted
  rcases List.mem_append.mp hm with hm | hm
  · have := hn _ hm
    simp [isStatement, ha, hb] at this
  · rcases List.mem_cons.mp hm with hm | hm
    · exact Nat.le_of_eq (congrArg List.length (Prod.mk.inj hm).1)
    · exact Nat.le_of_lt ((List.pairwise_cons.mp (List.pairwise_append.mp hsorted).2.1).1 _ hm)

/-- An `else` with a statement on either side is found. -/
theorem exists_lastSplit? {links a b : Chain} (hs : links = a ++ .elseWord :: b)
    (ha : closes 0 a) (hb : closes 0 b) : ∃ ab, lastSplit? links = some ab := by
  refine Option.isSome_iff_exists.mp (List.find?_isSome.mpr ⟨(a, b), ?_, ?_⟩)
  · exact List.mem_reverse.mpr (mem_splits.mpr hs)
  · simp [isStatement, ha, hb]

theorem statementOfSize_congr {n m : Nat} {links : Chain} (hn : links.length ≤ n)
    (hm : links.length ≤ m) : statementOfSize n links = statementOfSize m links := by
  match links, n, m with
  | [], _, _ => simp [statementOfSize]
  | .simple s :: _, _, _ => simp [statementOfSize]
  | .elseWord :: _, _, _ => simp [statementOfSize]
  | .ifHead c :: rest, n + 1, m + 1 =>
    rw [List.length_cons] at hn hm
    simp only [statementOfSize]
    split
    · rename_i a b hs
      have hl := congrArg List.length (lastSplit?_eq_some hs).1
      rw [List.length_append, List.length_cons] at hl
      have ha : statementOfSize n a = statementOfSize m a :=
        statementOfSize_congr (by omega) (by omega)
      have hb : statementOfSize n b = statementOfSize m b :=
        statementOfSize_congr (by omega) (by omega)
      rw [ha, hb]
    · have hrest : statementOfSize n rest = statementOfSize m rest :=
        statementOfSize_congr (by omega) (by omega)
      rw [hrest]
  | .whileHead c :: rest, n + 1, m + 1 =>
    rw [List.length_cons] at hn hm
    simp only [statementOfSize]
    have hrest : statementOfSize n rest = statementOfSize m rest :=
      statementOfSize_congr (by omega) (by omega)
    rw [hrest]

theorem statement_ifHead_of_some {c : Expr} {rest a b : Chain} (h : lastSplit? rest = some (a, b)) :
    statement (.ifHead c :: rest) = .ifThenElse c a.statement b.statement := by
  have hl := congrArg List.length (lastSplit?_eq_some h).1
  rw [List.length_append, List.length_cons] at hl
  have ha : statementOfSize rest.length a = a.statement :=
    statementOfSize_congr (by omega) (Nat.le_refl _)
  have hb : statementOfSize rest.length b = b.statement :=
    statementOfSize_congr (by omega) (Nat.le_refl _)
  simp only [statement, List.length_cons, statementOfSize, h]
  rw [ha, hb]
  rfl

theorem statement_ifHead_of_none {c : Expr} {rest : Chain} (h : lastSplit? rest = none) :
    statement (.ifHead c :: rest) = .ifThen c rest.statement := by
  simp only [statement, List.length_cons, statementOfSize, h]

theorem statement_whileHead (c : Expr) (rest : Chain) :
    statement (.whileHead c :: rest) = .while_ c rest.statement := rfl

theorem statement_simple (s : Statement) (rest : Chain) : statement (.simple s :: rest) = s := rfl

/-- Taking the statement apart gives its links back. -/
theorem links_statement {links : Chain} (h : closes 0 links)
    (hs : ∀ s, .simple s ∈ links → s.links = [.simple s]) : links.statement.links = links := by
  match links, h with
  | .ifHead c :: rest, h =>
    cases hl : lastSplit? rest with
    | some ab =>
      obtain ⟨a, b⟩ := ab
      obtain ⟨rfl, ha, hb⟩ := lastSplit?_eq_some hl
      rw [statement_ifHead_of_some hl, Statement.links, links_statement ha, links_statement hb]
      · exact fun s hm => hs s (by simp [hm])
      · exact fun s hm => hs s (by simp [hm])
    | none =>
      have hc := closes_of_lastSplit?_eq_none hl h
      rw [statement_ifHead_of_none hl, Statement.links, links_statement hc]
      exact fun s hm => hs s (by simp [hm])
  | .whileHead c :: rest, h =>
    have hc : closes 0 rest := h
    rw [statement_whileHead, Statement.links, links_statement hc]
    exact fun s hm => hs s (by simp [hm])
  | [.simple s], _ => exact hs s (by simp)
termination_by links.length
decreasing_by all_goals simp_all <;> omega

end Chain

namespace Nonterminal

/-- What is read as a nonterminal is read as one of its alternatives. -/
def Unfolds (P : (n : Nonterminal) → List Lexeme → n.Value → Prop) : Prop :=
  ∀ {n w v}, P n w v → ∃ a ∈ n.alternatives, Grammar.ReadsBy P a.symbols a.build w v

variable {P : (n : Nonterminal) → List Lexeme → n.Value → Prop} {u u' w r r' : List Lexeme}
  {link link' : Link} {links links' : Chain}

/-- The lexemes of a link. -/
def Covers (P : (n : Nonterminal) → List Lexeme → n.Value → Prop) : List Lexeme → Link → Prop
  | w, .ifHead c => ∃ x y u z, P expression u c ∧ w = ⟨.keyword .if_, x⟩ ::
      ⟨.mark .leftParenthesis, y⟩ :: (u ++ [⟨.mark .rightParenthesis, z⟩])
  | w, .whileHead c => ∃ x y u z, P expression u c ∧ w = ⟨.keyword .while_, x⟩ ::
      ⟨.mark .leftParenthesis, y⟩ :: (u ++ [⟨.mark .rightParenthesis, z⟩])
  | w, .simple s => P simpleStatement w s
  | w, .elseWord => ∃ x, w = [⟨.keyword .else_, x⟩]

/-- The lexemes of links one after the other. -/
def Linked (P : (n : Nonterminal) → List Lexeme → n.Value → Prop) : List Lexeme → Chain → Prop
  | w, [] => w = []
  | w, link :: links => ∃ u t, w = u ++ t ∧ Covers P u link ∧ Linked P t links

theorem Covers.mono (hP : ∀ {n w v}, P n w v → n.Derives w v) (h : Covers P w link) :
    Covers Derives w link := by
  cases link with
  | ifHead c | whileHead c =>
    obtain ⟨x, y, u, z, hu, rfl⟩ := h
    exact ⟨x, y, u, z, hP hu, rfl⟩
  | simple s => exact hP h
  | elseWord => exact h

theorem Linked.mono (hP : ∀ {n w v}, P n w v → n.Derives w v) (h : Linked P w links) :
    Linked Derives w links := by
  induction links generalizing w with
  | nil => exact h
  | cons link links ih =>
    obtain ⟨u, t, rfl, hu, ht⟩ := h
    exact ⟨u, t, rfl, hu.mono hP, ih ht⟩

theorem linked_append {a b : Chain} :
    Linked P w (a ++ b) ↔ ∃ u t, w = u ++ t ∧ Linked P u a ∧ Linked P t b := by
  induction a generalizing w with
  | nil =>
    constructor
    · exact fun h => ⟨[], w, rfl, rfl, h⟩
    · rintro ⟨_, t, rfl, rfl, h⟩
      exact h
  | cons link a ih =>
    constructor
    · rintro ⟨u, t, rfl, hu, ht⟩
      obtain ⟨v, t, rfl, hv, ht⟩ := ih.mp ht
      exact ⟨u ++ v, t, (List.append_assoc ..).symm, ⟨u, v, rfl, hu, hv⟩, ht⟩
    · rintro ⟨_, t, rfl, ⟨u, v, rfl, hu, hv⟩, ht⟩
      exact ⟨u, v ++ t, List.append_assoc .., hu, ih.mpr ⟨v, t, rfl, hv, ht⟩⟩

theorem linked_else {a b : Chain} :
    Linked P w (a ++ .elseWord :: b) ↔
      ∃ u x t, w = u ++ ⟨.keyword .else_, x⟩ :: t ∧ Linked P u a ∧ Linked P t b := by
  rw [linked_append]
  constructor
  · rintro ⟨u, _, rfl, ha, _, t, rfl, ⟨x, rfl⟩, hb⟩
    exact ⟨u, x, t, rfl, ha, hb⟩
  · rintro ⟨u, x, t, rfl, ha, hb⟩
    exact ⟨u, _, rfl, ha, [⟨.keyword .else_, x⟩], t, rfl, ⟨x, rfl⟩, hb⟩

theorem Linked.exists_of_simple {s : Statement} (h : Linked P w links) (hs : .simple s ∈ links) :
    ∃ u, P simpleStatement u s := by
  induction links generalizing w with
  | nil => cases hs
  | cons link links ih =>
    obtain ⟨u, t, rfl, hu, ht⟩ := h
    rcases List.mem_cons.mp hs with rfl | hs
    · exact ⟨u, hu⟩
    · exact ih ht hs

theorem links_of_simpleStatement {s : Statement} (h : simpleStatement.Derives w s) :
    s.links = [.simple s] := by
  obtain ⟨a, ha, h⟩ := derives_iff.mp h
  simp only [alternatives, simpleStatementAlternatives, List.mem_cons, List.not_mem_nil,
    or_false] at ha
  rcases ha with rfl | rfl | rfl | rfl | rfl | rfl
  · obtain ⟨_, _, _, -, -, -, rfl⟩ := h
    rfl
  · obtain ⟨_, _, -, _, b, _, -, -, _, k, _, -, hk, -, rfl⟩ := h
    obtain ⟨a, ha, hk⟩ := derives_iff.mp hk
    simp only [alternatives, tryTailAlternatives, List.mem_cons, List.not_mem_nil, or_false] at ha
    rcases ha with rfl | rfl
    · obtain ⟨_, _, _, -, -, _, _, _, -, -, _, _, _, -, -, -, rfl⟩ := hk
      rfl
    · obtain ⟨_, _, -, _, _, _, -, -, -, rfl⟩ := hk
      rfl
  · obtain ⟨_, _, -, _, _, _, -, -, _, _, -, -, rfl⟩ := h
    rfl
  · obtain ⟨_, _, -, _, _, _, -, -, _, _, -, -, rfl⟩ := h
    rfl
  · obtain ⟨_, _, _, -, -, _, _, -, -, rfl⟩ := h
    rfl
  · obtain ⟨_, _, -, -, rfl⟩ := h
    rfl

/-- Links that lexemes are read as are the links of the statement that they are. -/
theorem Linked.links_statement (h : Linked Derives w links) (hc : Chain.closes 0 links) :
    links.statement.links = links := by
  refine Chain.links_statement hc fun s hs => ?_
  obtain ⟨u, hu⟩ := h.exists_of_simple hs
  exact links_of_simpleStatement hu

theorem linked_of_chain (hP : Unfolds P) {k : Nat} (h : P (chain k) w links) :
    Linked P w links ∧ Chain.closes k links := by
  induction hn : w.length using Nat.strongRecOn generalizing w links k with
  | _ n ih =>
    obtain ⟨a, ha, h⟩ := hP h
    simp only [alternatives, chainAlternatives, List.mem_cons, List.not_mem_nil, or_false] at ha
    rcases ha with rfl | rfl | rfl
    · simp only [Grammar.readsBy_node, Grammar.readsBy_last] at h
      obtain ⟨u, s, t, rfl, hu, v, ht, rfl⟩ := h
      obtain ⟨b, hb, ht⟩ := hP ht
      cases k with
      | zero =>
        obtain rfl := List.mem_singleton.mp hb
        obtain ⟨rfl, rfl⟩ := ht
        exact ⟨⟨u, [], rfl, hu, rfl⟩, rfl⟩
      | succ k =>
        simp only [alternatives, chainEndAlternatives, List.mem_cons, List.not_mem_nil,
          or_false] at hb
        rcases hb with rfl | rfl
        · simp only [Grammar.readsBy_skip, Grammar.readsBy_last] at ht
          obtain ⟨x, t, rfl, v, hv, rfl⟩ := ht
          obtain ⟨hl, hc⟩ := ih t.length (by simp at hn; omega) hv rfl
          exact ⟨⟨u, _, rfl, hu, [⟨.keyword .else_, x⟩], t, rfl, ⟨x, rfl⟩, hl⟩, hc⟩
        · obtain ⟨rfl, rfl⟩ := ht
          exact ⟨⟨u, [], rfl, hu, rfl⟩, rfl⟩
    · simp only [Grammar.readsBy_skip, Grammar.readsBy_node, Grammar.readsBy_last] at h
      obtain ⟨x, _, rfl, y, _, rfl, u, c, _, rfl, hu, z, t, rfl, v, ht, rfl⟩ := h
      obtain ⟨hl, hc⟩ := ih t.length (by simp at hn; omega) ht rfl
      exact ⟨⟨_, t, by simp, ⟨x, y, u, z, hu, rfl⟩, hl⟩, hc⟩
    · simp only [Grammar.readsBy_skip, Grammar.readsBy_node, Grammar.readsBy_last] at h
      obtain ⟨x, _, rfl, y, _, rfl, u, c, _, rfl, hu, z, t, rfl, v, ht, rfl⟩ := h
      obtain ⟨hl, hc⟩ := ih t.length (by simp at hn; omega) ht rfl
      exact ⟨⟨_, t, by simp, ⟨x, y, u, z, hu, rfl⟩, hl⟩, hc⟩

theorem chain_of_linked {k : Nat} {w : List Lexeme} {links : Chain} (h : Linked Derives w links)
    (hc : Chain.closes k links) : (chain k).Derives w links := by
  match links, h, hc with
  | .ifHead c :: rest, h, hc =>
    obtain ⟨_, t, rfl, ⟨x, y, u, z, hu, rfl⟩, ht⟩ := h
    have := chain_of_linked (k := k + 1) ht hc
    exact derives_chain.mpr (.inr (.inl ⟨x, y, u, c, z, t, rest, by simp, hu, this, rfl⟩))
  | .whileHead c :: rest, h, hc =>
    obtain ⟨_, t, rfl, ⟨x, y, u, z, hu, rfl⟩, ht⟩ := h
    have := chain_of_linked (k := k) ht hc
    exact derives_chain.mpr (.inr (.inr ⟨x, y, u, c, z, t, rest, by simp, hu, this, rfl⟩))
  | [.simple s], h, _ =>
    obtain ⟨u, _, rfl, hu, rfl⟩ := h
    exact derives_chain.mpr (.inl ⟨u, s, [], [], rfl, hu, derives_chainEnd.mpr (.inl ⟨rfl, rfl⟩), rfl⟩)
  | .simple s :: .elseWord :: rest, h, hc =>
    obtain ⟨u, _, rfl, hu, _, t, rfl, ⟨x, rfl⟩, ht⟩ := h
    cases k with
    | zero => cases hc
    | succ k =>
      have := chain_of_linked (k := k) ht hc
      exact derives_chain.mpr (.inl ⟨u, s, _, _, rfl, hu,
        derives_chainEnd.mpr (.inr ⟨k, x, t, rest, rfl, rfl, this, rfl⟩), rfl⟩)

theorem derives_chain_iff {k : Nat} :
    (chain k).Derives w links ↔ Linked Derives w links ∧ Chain.closes k links :=
  ⟨linked_of_chain derives_iff.mp, fun h => chain_of_linked h.1 h.2⟩

theorem Covers.exists_cons (h : Covers Derives w link) :
    ∃ l t, w = l :: t ∧ l.terminal ∈ link.kind.first := by
  cases link with
  | ifHead c | whileHead c =>
    obtain ⟨x, y, u, z, -, rfl⟩ := h
    exact ⟨_, _, rfl, List.mem_singleton.mpr rfl⟩
  | simple s => exact firstTable.exists_cons_of_is h.is rfl
  | elseWord =>
    obtain ⟨x, rfl⟩ := h
    exact ⟨_, _, rfl, List.mem_singleton.mpr rfl⟩

theorem Linked.heads (h : Linked Derives w links) (hr : Heads LinkKind.follow r) :
    Heads LinkKind.follow (w ++ r) := by
  cases links with
  | nil =>
    obtain rfl := h
    exact hr
  | cons link links =>
    obtain ⟨u, t, rfl, hu, -⟩ := h
    obtain ⟨l, u, rfl, hl⟩ := hu.exists_cons
    exact heads_cons.mpr (link.kind.first_subset_follow hl)

/-- The condition of a head ends at its parenthesis. -/
theorem eq_of_condition {z z' : Text} (hu : grammar.Is expression u) (hu' : grammar.Is expression u')
    (he : u ++ ⟨.mark .rightParenthesis, z⟩ :: r = u' ++ ⟨.mark .rightParenthesis, z'⟩ :: r') :
    u = u' ∧ z = z' ∧ r = r' := by
  obtain ⟨rfl, her⟩ := eq_of_ends hu hu' he
    (.of_endsExpression (endsExpression_of_heads (by simp)))
    (.of_endsExpression (endsExpression_of_heads (by simp)))
  obtain ⟨hz, rfl⟩ := List.cons.inj her
  exact ⟨rfl, (Lexeme.mk.inj hz).2, rfl⟩

/-- The stream determines where a link ends and of what kind it is. -/
theorem Covers.eq (h : Covers Derives u link) (h' : Covers Derives u' link') (he : u ++ r = u' ++ r')
    (hr : Heads LinkKind.follow r) (hr' : Heads LinkKind.follow r') :
    link.kind = link'.kind ∧ u = u' ∧ r = r' := by
  have hk : link.kind = link'.kind := by
    obtain ⟨l, t, rfl, hl⟩ := h.exists_cons
    obtain ⟨l', t', rfl, hl'⟩ := h'.exists_cons
    obtain ⟨rfl, -⟩ := List.cons.inj he
    exact LinkKind.eq_of_mem_first hl hl'
  refine ⟨hk, ?_⟩
  match link, link', hk with
  | .ifHead c, .ifHead c', _ | .whileHead c, .whileHead c', _ =>
    obtain ⟨x, y, v, z, hv, rfl⟩ := h
    obtain ⟨x', y', v', z', hv', rfl⟩ := h'
    simp only [List.cons_append, List.append_assoc, List.nil_append, List.cons.injEq] at he
    obtain ⟨hx, hy, he⟩ := he
    obtain ⟨rfl, rfl, rfl⟩ := eq_of_condition hv.is hv'.is he
    rw [hx, hy]
    exact ⟨rfl, rfl⟩
  | .simple s, .simple s', _ =>
    exact eq_of_ends h.is h'.is he (.of_heads (by decide) rfl hr) (.of_heads (by decide) rfl hr')
  | .elseWord, .elseWord, _ =>
    obtain ⟨x, rfl⟩ := h
    obtain ⟨x', rfl⟩ := h'
    obtain ⟨hx, rfl⟩ := List.cons.inj he
    rw [hx]
    exact ⟨rfl, rfl⟩

/-- The first lexeme tells of what kind the first link is. -/
theorem Linked.exists_link {l : Lexeme} {k : LinkKind} (h : Linked P (l :: w) links)
    (hP : ∀ {n w v}, P n w v → n.Derives w v) (hl : l.terminal ∈ k.first) :
    ∃ link rest u t, links = link :: rest ∧ link.kind = k ∧ l :: w = u ++ t ∧ Covers P u link ∧
      Linked P t rest := by
  cases links with
  | nil => cases h
  | cons link rest =>
    obtain ⟨u, t, he, hu, ht⟩ := h
    refine ⟨link, rest, u, t, rfl, ?_, he, hu, ht⟩
    obtain ⟨l', u, rfl, hl'⟩ := (hu.mono hP).exists_cons
    obtain ⟨rfl, -⟩ := List.cons.inj he
    exact LinkKind.eq_of_mem_first hl' hl

section
variable {x y z : Text} (hP : ∀ {n w v}, P n w v → n.Derives w v)
include hP

theorem Linked.of_if (h : Linked P (⟨.keyword .if_, x⟩ :: ⟨.mark .leftParenthesis, y⟩ ::
      (u ++ ⟨.mark .rightParenthesis, z⟩ :: w)) links) (hu : grammar.Is expression u) :
    ∃ c rest, links = .ifHead c :: rest ∧ P expression u c ∧ Linked P w rest := by
  obtain ⟨link, rest, _, t, rfl, hk, he, hlink, ht⟩ :=
    h.exists_link hP (k := .ifHead) (List.mem_singleton.mpr rfl)
  match link, hk with
  | .ifHead c, _ =>
    obtain ⟨x', y', u', z', hu', rfl⟩ := hlink
    simp only [List.cons_append, List.append_assoc, List.nil_append, List.cons.injEq] at he
    obtain ⟨rfl, -, rfl⟩ := eq_of_condition hu (hP hu').is he.2.2
    exact ⟨c, rest, rfl, hu', ht⟩

theorem Linked.of_while (h : Linked P (⟨.keyword .while_, x⟩ :: ⟨.mark .leftParenthesis, y⟩ ::
      (u ++ ⟨.mark .rightParenthesis, z⟩ :: w)) links) (hu : grammar.Is expression u) :
    ∃ c rest, links = .whileHead c :: rest ∧ P expression u c ∧ Linked P w rest := by
  obtain ⟨link, rest, _, t, rfl, hk, he, hlink, ht⟩ :=
    h.exists_link hP (k := .whileHead) (List.mem_singleton.mpr rfl)
  match link, hk with
  | .whileHead c, _ =>
    obtain ⟨x', y', u', z', hu', rfl⟩ := hlink
    simp only [List.cons_append, List.append_assoc, List.nil_append, List.cons.injEq] at he
    obtain ⟨rfl, -, rfl⟩ := eq_of_condition hu (hP hu').is he.2.2
    exact ⟨c, rest, rfl, hu', ht⟩

/-- Where a statement begins without a head, there is nothing else to it. -/
theorem Linked.of_simple {l : Lexeme} (h : Linked P (l :: w) links) (hc : Chain.closes 0 links)
    (hl : l.terminal ∈ simpleStatement.first) :
    ∃ s, links = [.simple s] ∧ P simpleStatement (l :: w) s := by
  obtain ⟨link, rest, u, t, rfl, hk, he, hlink, ht⟩ := h.exists_link hP (k := .simple) hl
  match link, hk, rest, hc with
  | .simple s, _, [], _ =>
    obtain rfl := ht
    rw [List.append_nil] at he
    exact ⟨s, rfl, he ▸ hlink⟩

end

/-- Of two readings of one stream, that with fewer links covers the first links of the other. -/
theorem Linked.align (h : Linked Derives u links) (h' : Linked P u' links')
    (hP : ∀ {n w v}, P n w v → n.Derives w v) (he : u ++ r = u' ++ r')
    (hr : Heads LinkKind.follow r) (hr' : Heads LinkKind.follow r')
    (hl : links.length ≤ links'.length) :
    ∃ a b t, links' = a ++ b ∧ u' = u ++ t ∧ Linked P u a ∧ Linked P t b ∧
      links.kinds = a.kinds := by
  induction links generalizing u u' links' with
  | nil =>
    obtain rfl := h
    exact ⟨[], links', u', rfl, rfl, rfl, h', rfl⟩
  | cons link links ih =>
    obtain ⟨v, t, rfl, hv, ht⟩ := h
    cases links' with
    | nil => simp at hl
    | cons link' links' =>
      obtain ⟨v', t', rfl, hv', ht'⟩ := h'
      rw [List.append_assoc, List.append_assoc] at he
      obtain ⟨hk, rfl, het⟩ := hv.eq (hv'.mono hP) he (ht.heads hr) ((ht'.mono hP).heads hr')
      obtain ⟨a, b, t, rfl, rfl, ha, hb, hks⟩ :=
        ih ht ht' het (Nat.le_of_succ_le_succ hl)
      exact ⟨link' :: a, b, t, rfl, (List.append_assoc ..).symm, ⟨v, _, rfl, hv', ha⟩, hb,
        congrArg₂ List.cons hk hks⟩

theorem Linked.eq_nil_iff (h : Linked Derives w links) : w = [] ↔ links = [] := by
  cases links with
  | nil =>
    obtain rfl := h
    simp
  | cons link links =>
    obtain ⟨u, t, rfl, hu, -⟩ := h
    obtain ⟨l, u, rfl, -⟩ := hu.exists_cons
    simp

/-- Two readings of the same lexemes have the same kinds of links. -/
theorem Linked.kinds_eq (h : Linked Derives w links) (h' : Linked Derives w links') :
    links.kinds = links'.kinds := by
  rcases Nat.le_total links.length links'.length with hl | hl
  · obtain ⟨a, b, t, rfl, ht, -, hb, hk⟩ := h.align (r := []) h' id rfl (by simp) (by simp) hl
    obtain rfl := hb.eq_nil_iff.mp (List.self_eq_append_right.mp ht)
    rw [hk, List.append_nil]
  · obtain ⟨a, b, t, rfl, ht, -, hb, hk⟩ := h'.align (r := []) h id rfl (by simp) (by simp) hl
    obtain rfl := hb.eq_nil_iff.mp (List.self_eq_append_right.mp ht)
    rw [hk, List.append_nil]

/-- As many links have the same lexemes. -/
theorem Linked.eq_of_length (h : Linked Derives u links) (h' : Linked Derives u' links')
    (he : u ++ r = u' ++ r') (hr : Heads LinkKind.follow r) (hr' : Heads LinkKind.follow r')
    (hl : links.length = links'.length) : u = u' := by
  obtain ⟨a, b, t, rfl, rfl, -, hb, hk⟩ := h.align h' id he hr hr' (Nat.le_of_eq hl)
  have hka := congrArg List.length hk
  simp only [Chain.kinds, List.length_map] at hka
  obtain rfl : b = [] := List.eq_nil_of_length_eq_zero (by rw [List.length_append] at hl; omega)
  rw [hb.eq_nil_iff.mpr rfl, List.append_nil]

/-- Where some reading of the lexemes has links on either side of an `else`, any reading has. -/
theorem Linked.exists_split {a b : Chain} {x : Text} (hP : ∀ {n w v}, P n w v → n.Derives w v)
    (h : Linked P (u ++ ⟨.keyword .else_, x⟩ :: w) links) (ha : Linked Derives u a)
    (hb : Linked Derives w b) :
    ∃ a' b', links = a' ++ .elseWord :: b' ∧ Linked P u a' ∧ Linked P w b' ∧
      Chain.kinds a = Chain.kinds a' ∧
      Chain.kinds b = Chain.kinds b' := by
  have hk := (linked_else.mpr ⟨u, x, w, rfl, ha, hb⟩).kinds_eq (h.mono hP)
  have hl : a.length ≤ links.length := by
    have := congrArg List.length hk
    simp only [Chain.kinds, List.length_map, List.length_append, List.length_cons] at this
    omega
  have helse : Terminal.keyword .else_ ∈ LinkKind.follow := by decide
  obtain ⟨a', b', t, rfl, ht, ha', hb', hka⟩ :=
    ha.align h hP (List.append_nil _).symm (heads_cons.mpr helse) (heads_nil _) hl
  obtain rfl := List.append_cancel_left ht
  simp only [Chain.kinds, List.map_append] at hk hka
  rw [hka] at hk
  obtain ⟨link, b', rfl, hlink, hkb⟩ := List.map_eq_cons_iff.mp (List.append_cancel_left hk).symm
  match link, hlink with
  | .elseWord, _ =>
    obtain ⟨_, t, he, ⟨y, rfl⟩, hb'⟩ := hb'
    obtain ⟨-, rfl⟩ := List.cons.inj he
    exact ⟨a', b', rfl, ha', hb', hka, hkb.symm⟩

end Nonterminal

end MemberAccess.Java
