import MemberAccess.Proofs.Java.Derivation

/-!
# Statements and their chains

Taking a statement apart and putting its links together again gives the statement back if the
branch of each `if` is a block. What closes fewer open `if` also closes more, and links that close
an open `if` close without it or can be split at its `else`.
-/

namespace MemberAccess.Java

namespace Statement

def links : Statement → Chain
  | ifThen c s => .ifHead c :: s.links
  | ifThenElse c s s' => .ifHead c :: (s.links ++ .elseWord :: s'.links)
  | while_ c s => .whileHead c :: s.links
  | s => [.simple s]

/-- Whether the branch of each `if` is a block. -/
def IsBraced : Statement → Prop
  | ifThen _ s => ∃ b, s = block b
  | ifThenElse _ s s' => (∃ b, s = block b) ∧ s'.IsBraced
  | while_ _ s => s.IsBraced
  | _ => True

end Statement

namespace Chain

theorem splits_simple_else (s : Statement) (rest : Chain) :
    splits (.simple s :: .elseWord :: rest) =
      ([.simple s], rest) ::
        (splits rest).map fun p => (.simple s :: .elseWord :: p.1, p.2) := by
  simp [splits]

theorem lastSplit?_simple_else (s : Statement) {rest : Chain} (h : rest.isStatement) :
    lastSplit? (.simple s :: .elseWord :: rest) = some ([.simple s], rest) := by
  have hnone : ((splits rest).map fun p => (.simple s :: .elseWord :: p.1, p.2)).reverse.find?
      (fun p : Chain × Chain => isStatement p.1 && isStatement p.2) = none := by
    rw [List.find?_eq_none]
    intro p hp
    simp only [List.mem_reverse, List.mem_map] at hp
    obtain ⟨q, -, rfl⟩ := hp
    simp [isStatement, closes]
  rw [lastSplit?, splits_simple_else, List.reverse_cons, List.find?_append, hnone]
  have hs : isStatement [.simple s] = true := rfl
  simp [hs, h]

theorem closes_links {s : Statement} (h : s.IsBraced) (k : Nat) : closes k s.links = true := by
  match s with
  | .ifThen c s =>
    obtain ⟨b, rfl⟩ := h
    rfl
  | .ifThenElse c s s' =>
    obtain ⟨⟨b, rfl⟩, h⟩ := h
    exact closes_links h k
  | .while_ c s => exact closes_links (s := s) h k
  | .block _ | .expression _ | .return_ _ | .throw_ _ | .try_ .. | .empty => rfl

theorem statementOfSize_links {s : Statement} (h : s.IsBraced) {n : Nat}
    (hn : s.links.length ≤ n) : statementOfSize n s.links = s := by
  match s, n with
  | .ifThen c s, n + 1 =>
    obtain ⟨b, rfl⟩ := h
    cases n with
    | zero => simp [Statement.links] at hn
    | succ n => rfl
  | .ifThenElse c s s', n + 1 =>
    obtain ⟨⟨b, rfl⟩, h⟩ := h
    simp only [Statement.links, List.length_cons, List.length_append] at hn
    have hs' := statementOfSize_links h (n := n) (by omega)
    have hsplit := lastSplit?_simple_else (.block b) (closes_links h 0)
    simp only [Statement.links, statementOfSize, List.cons_append, List.nil_append, hsplit, hs']
  | .while_ c s, n + 1 =>
    simp only [Statement.links, List.length_cons] at hn
    simp [Statement.links, statementOfSize, statementOfSize_links (s := s) h (n := n) (by omega)]
  | .block _, n + 1 | .expression _, n + 1 | .return_ _, n + 1 | .throw_ _, n + 1
  | .try_ .., n + 1 | .empty, n + 1 => rfl
  | .ifThen .., 0 | .ifThenElse .., 0 | .while_ .., 0 | .block _, 0 | .expression _, 0
  | .return_ _, 0 | .throw_ _, 0 | .try_ .., 0 | .empty, 0 => simp [Statement.links] at hn

/-- A statement in braces is what its links are. -/
theorem statement_links {s : Statement} (h : s.IsBraced) : s.links.statement = s :=
  statementOfSize_links h (Nat.le_refl _)

theorem closes_succ {k : Nat} {links : Chain} (h : closes k links) : closes (k + 1) links := by
  fun_induction closes k links with
  | case1 k c rest ih => exact ih h
  | case2 k c rest ih => exact ih h
  | case3 k s => rfl
  | case4 s rest => cases h
  | case5 s rest n ih => exact ih h
  | case6 => cases h

theorem closes_of_zero {k : Nat} {links : Chain} (h : closes 0 links) : closes k links := by
  induction k with
  | zero => exact h
  | succ k ih => exact closes_succ ih

/-- Links that end a statement can be followed by an `else` where one more `if` is open. -/
theorem closes_append_else {k : Nat} {links rest : Chain} (h : closes k links)
    (hr : closes 0 rest) : closes (k + 1) (links ++ .elseWord :: rest) := by
  fun_induction closes k links with
  | case1 k c links ih => exact ih h
  | case2 k c links ih => exact ih h
  | case3 k s =>
    have : closes k rest := closes_of_zero hr
    exact this
  | case4 s links => cases h
  | case5 s links n ih => exact ih h
  | case6 => cases h

theorem mem_splits_cons {link : Link} {links a b : Chain} (h : (a, b) ∈ splits links) :
    (link :: a, b) ∈ splits (link :: links) := by
  cases link with
  | elseWord => exact List.mem_cons_of_mem _ (List.mem_map.mpr ⟨(a, b), h, rfl⟩)
  | _ => exact List.mem_map.mpr ⟨(a, b), h, rfl⟩

theorem mem_splits {links a b : Chain} : (a, b) ∈ splits links ↔ links = a ++ .elseWord :: b := by
  induction links generalizing a with
  | nil => simp [splits]
  | cons link links ih =>
    constructor
    · intro h
      cases link with
      | elseWord =>
        rcases List.mem_cons.mp h with h | h
        · cases h
          rfl
        · obtain ⟨⟨a', b'⟩, hm, he⟩ := List.mem_map.mp h
          cases he
          rw [ih.mp hm]
          rfl
      | _ =>
        obtain ⟨⟨a', b'⟩, hm, he⟩ := List.mem_map.mp h
        cases he
        rw [ih.mp hm]
        rfl
    · intro h
      cases a with
      | nil =>
        cases h
        exact .head _
      | cons l a =>
        cases h
        exact mem_splits_cons (ih.mpr rfl)

/-- Where an `if` is open, links close without it or can be split at its `else`. -/
theorem closes_or_split {k : Nat} {links : Chain} (h : closes (k + 1) links) :
    closes k links ∨ ∃ a b, links = a ++ .elseWord :: b ∧ closes 0 a ∧ closes k b := by
  match links, h with
  | .ifHead c :: rest, h =>
    rcases closes_or_split (k := k + 1) h with h | ⟨a, b, rfl, ha, hb⟩
    · exact .inl h
    · rcases closes_or_split hb with hb | ⟨a', b', rfl, ha', hb'⟩
      · exact .inr ⟨.ifHead c :: a, b, rfl, closes_succ ha, hb⟩
      · exact .inr ⟨.ifHead c :: (a ++ .elseWord :: a'), b', by simp, closes_append_else ha ha', hb'⟩
  | .whileHead c :: rest, h =>
    rcases closes_or_split (show closes (k + 1) rest from h) with h | ⟨a, b, rfl, ha, hb⟩
    · exact .inl h
    · exact .inr ⟨.whileHead c :: a, b, rfl, ha, hb⟩
  | [.simple s], _ => exact .inl rfl
  | .simple s :: .elseWord :: rest, h => exact .inr ⟨[.simple s], rest, rfl, rfl, h⟩
termination_by links.length
decreasing_by all_goals simp_all <;> omega

theorem lastSplit?_eq_some {links a b : Chain} (h : lastSplit? links = some (a, b)) :
    links = a ++ .elseWord :: b ∧ closes 0 a ∧ closes 0 b := by
  have hm := List.mem_reverse.mp (List.mem_of_find?_eq_some h)
  have hc := List.find?_some h
  simp only [isStatement, Bool.and_eq_true] at hc
  exact ⟨mem_splits.mp hm, hc⟩

theorem closes_of_lastSplit?_eq_none {links : Chain} (h : lastSplit? links = none)
    (hc : closes 1 links) : closes 0 links := by
  rcases closes_or_split hc with hc | ⟨a, b, hs, ha, hb⟩
  · exact hc
  · have := List.find?_eq_none.mp h (a, b) (List.mem_reverse.mpr (mem_splits.mpr hs))
    simp [isStatement, ha, hb] at this

end Chain

namespace Nonterminal

variable {w : List Lexeme} {v : Chain} {k : Nat}

theorem derives_chain :
    (chain k).Derives w v ↔
      (∃ u s t v', w = u ++ t ∧ simpleStatement.Derives u s ∧ (chainEnd k).Derives t v' ∧
        Link.simple s :: v' = v) ∨
      (∃ x y u c z t v', w = ⟨.keyword .if_, x⟩ :: ⟨.mark .leftParenthesis, y⟩ ::
          (u ++ ⟨.mark .rightParenthesis, z⟩ :: t) ∧
        expression.Derives u c ∧ (chain (k + 1)).Derives t v' ∧ Link.ifHead c :: v' = v) ∨
      (∃ x y u c z t v', w = ⟨.keyword .while_, x⟩ :: ⟨.mark .leftParenthesis, y⟩ ::
          (u ++ ⟨.mark .rightParenthesis, z⟩ :: t) ∧
        expression.Derives u c ∧ (chain k).Derives t v' ∧ Link.whileHead c :: v' = v) := by
  rw [derives_iff]
  simp only [alternatives, chainAlternatives, List.mem_cons, List.not_mem_nil, or_false,
    exists_eq_or_imp, exists_eq_left, Grammar.readsBy_skip, Grammar.readsBy_node,
    Grammar.readsBy_last]
  constructor
  · rintro (⟨u, s, t, rfl, hu, v', ht, rfl⟩ | ⟨x, _, rfl, y, _, rfl, u, c, _, rfl, hu, z, t, rfl,
      v', ht, rfl⟩ | ⟨x, _, rfl, y, _, rfl, u, c, _, rfl, hu, z, t, rfl, v', ht, rfl⟩)
    · exact .inl ⟨u, s, t, v', rfl, hu, ht, rfl⟩
    · exact .inr (.inl ⟨x, y, u, c, z, t, v', rfl, hu, ht, rfl⟩)
    · exact .inr (.inr ⟨x, y, u, c, z, t, v', rfl, hu, ht, rfl⟩)
  · rintro (⟨u, s, t, v', rfl, hu, ht, rfl⟩ | ⟨x, y, u, c, z, t, v', rfl, hu, ht, rfl⟩ |
      ⟨x, y, u, c, z, t, v', rfl, hu, ht, rfl⟩)
    · exact .inl ⟨u, s, t, rfl, hu, v', ht, rfl⟩
    · exact .inr (.inl ⟨x, _, rfl, y, _, rfl, u, c, _, rfl, hu, z, t, rfl, v', ht, rfl⟩)
    · exact .inr (.inr ⟨x, _, rfl, y, _, rfl, u, c, _, rfl, hu, z, t, rfl, v', ht, rfl⟩)

theorem derives_chainEnd :
    (chainEnd k).Derives w v ↔
      (w = [] ∧ v = []) ∨
      ∃ j x t v', k = j + 1 ∧ w = ⟨.keyword .else_, x⟩ :: t ∧ (chain j).Derives t v' ∧
        v = .elseWord :: v' := by
  rw [derives_iff]
  cases k with
  | zero =>
    simp only [alternatives, chainEndAlternatives, List.mem_singleton, exists_eq_left,
      Grammar.readsBy_nil]
    constructor
    · rintro ⟨rfl, rfl⟩
      exact .inl ⟨rfl, rfl⟩
    · rintro (⟨rfl, rfl⟩ | ⟨_, _, _, _, h, -⟩)
      · exact ⟨rfl, rfl⟩
      · cases h
  | succ k =>
    simp only [alternatives, chainEndAlternatives, List.mem_cons, List.not_mem_nil, or_false,
      exists_eq_or_imp, exists_eq_left, Grammar.readsBy_nil, Grammar.readsBy_skip,
      Grammar.readsBy_last]
    constructor
    · rintro (⟨x, t, rfl, v', ht, rfl⟩ | ⟨rfl, rfl⟩)
      · exact .inr ⟨k, x, t, v', rfl, rfl, ht, rfl⟩
      · exact .inl ⟨rfl, rfl⟩
    · rintro (⟨rfl, rfl⟩ | ⟨_, x, t, v', h, rfl, ht, rfl⟩)
      · exact .inr ⟨rfl, rfl⟩
      · cases h
        exact .inl ⟨x, t, rfl, v', ht, rfl⟩

/-- A chain can stand inside more heads of `if`. -/
theorem chain_succ (h : (chain k).Derives w v) : (chain (k + 1)).Derives w v := by
  induction hn : w.length using Nat.strongRecOn generalizing w v k with
  | _ m ih =>
    rcases derives_chain.mp h with ⟨u, s, t, v', rfl, hu, ht, rfl⟩ |
      ⟨x, y, u, c, z, t, v', rfl, hu, ht, rfl⟩ | ⟨x, y, u, c, z, t, v', rfl, hu, ht, rfl⟩
    · refine derives_chain.mpr (.inl ⟨u, s, t, v', rfl, hu, ?_, rfl⟩)
      rcases derives_chainEnd.mp ht with ⟨rfl, rfl⟩ | ⟨j, x, r, v'', rfl, rfl, hr, rfl⟩
      · exact derives_chainEnd.mpr (.inl ⟨rfl, rfl⟩)
      · have := ih r.length (by simp at hn; omega) hr rfl
        exact derives_chainEnd.mpr (.inr ⟨j + 1, x, r, v'', rfl, rfl, this, rfl⟩)
    · have := ih t.length (by simp at hn; omega) ht rfl
      exact derives_chain.mpr (.inr (.inl ⟨x, y, u, c, z, t, v', rfl, hu, this, rfl⟩))
    · have := ih t.length (by simp at hn; omega) ht rfl
      exact derives_chain.mpr (.inr (.inr ⟨x, y, u, c, z, t, v', rfl, hu, this, rfl⟩))

theorem chainEnd_succ (h : (chainEnd k).Derives w v) : (chainEnd (k + 1)).Derives w v := by
  rcases derives_chainEnd.mp h with ⟨rfl, rfl⟩ | ⟨j, x, t, v', rfl, rfl, ht, rfl⟩
  · exact derives_chainEnd.mpr (.inl ⟨rfl, rfl⟩)
  · exact derives_chainEnd.mpr (.inr ⟨j + 1, x, t, v', rfl, rfl, chain_succ ht, rfl⟩)

end Nonterminal

end MemberAccess.Java
