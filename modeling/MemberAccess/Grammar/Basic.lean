import MemberAccess.Text.Lines

/-!
# Grammars with values

A grammar gives each nonterminal a type of values and a list of alternatives. An alternative is a
sequence of symbols with a function that builds the value of the whole from the values of the parts.
The order of alternatives states which reading of an ambiguous text is preferred.
-/

namespace MemberAccess

/-- A symbol of an alternative: a terminal whose text does not matter, a terminal that hands its
text to the value, or a nonterminal. -/
inductive Symbol (T N : Type) where
  | skip (t : T)
  | take (t : T)
  | node (n : N)
  deriving DecidableEq, Repr

/-- A terminal with the text that it was read from. -/
structure Lexeme (T : Type) where
  terminal : T
  text : Text
  deriving DecidableEq

/-- A lexeme at the place where it begins. -/
structure Token (T : Type) extends Lexeme T where
  position : Position
  deriving DecidableEq

variable {T N : Type}

/-- A function from the values of the symbols to a result, one argument after the other. -/
@[reducible] def Builder (Value : N → Type) : List (Symbol T N) → Type → Type
  | [], R => R
  | .skip _ :: ss, R => Builder Value ss R
  | .take _ :: ss, R => Text → Builder Value ss R
  | .node n :: ss, R => Value n → Builder Value ss R

/-- One way to write a nonterminal. -/
structure Alternative (T : Type) (Value : N → Type) (n : N) where
  symbols : List (Symbol T N)
  build : Builder Value symbols (Value n)

/-- A grammar over terminals `T` and nonterminals `N`. -/
structure Grammar (T N : Type) where
  Value : N → Type
  alternatives : (n : N) → List (Alternative T Value n)

namespace Builder

variable {Value : N → Type} {R S : Type}

/-- Hands the result of `first` to `next`, which waits for the values of further symbols. -/
def compose : (ss : List (Symbol T N)) → {rest : List (Symbol T N)} →
    Builder Value ss S → (S → Builder Value rest R) → Builder Value (ss ++ rest) R
  | [], _, first, next => next first
  | .skip _ :: ss, _, first, next => compose ss first next
  | .take _ :: ss, _, first, next => fun t => compose ss (first t) next
  | .node _ :: ss, _, first, next => fun v => compose ss (first v) next

end Builder

namespace Grammar

variable (G : Grammar T N)

/-- `Reads ss build w r`: the lexemes `w` can be read as the symbols `ss`, and `build` makes `r` of
their values. -/
inductive Reads : {R : Type} → (ss : List (Symbol T N)) → Builder G.Value ss R →
    List (Lexeme T) → R → Prop where
  | nil {R : Type} (r : R) : Reads [] r [] r
  | skip {R : Type} {t : T} {ss : List (Symbol T N)} {build : Builder G.Value ss R}
      {x : Text} {w : List (Lexeme T)} {r : R} :
      Reads ss build w r → Reads (.skip t :: ss) build (⟨t, x⟩ :: w) r
  | take {R : Type} {t : T} {ss : List (Symbol T N)} {build : Text → Builder G.Value ss R}
      {x : Text} {w : List (Lexeme T)} {r : R} :
      Reads ss (build x) w r → Reads (.take t :: ss) build (⟨t, x⟩ :: w) r
  | node {R : Type} {n : N} {ss : List (Symbol T N)} {build : G.Value n → Builder G.Value ss R}
      {a : Alternative T G.Value n} {u w : List (Lexeme T)} {v : G.Value n} {r : R} :
      a ∈ G.alternatives n → Reads a.symbols a.build u v → Reads ss (build v) w r →
      Reads (.node n :: ss) build (u ++ w) r

/-- The lexemes `w` derive from the nonterminal `n` with the value `v`. -/
def Derives (n : N) (w : List (Lexeme T)) (v : G.Value n) : Prop :=
  ∃ a ∈ G.alternatives n, G.Reads a.symbols a.build w v

section Reads

variable {G : Grammar T N} {R S : Type}

theorem reads_nil {b r : R} {w : List (Lexeme T)} :
    G.Reads ([] : List (Symbol T N)) b w r ↔ w = [] ∧ b = r := by
  constructor
  · intro h
    cases h
    exact ⟨rfl, rfl⟩
  · rintro ⟨rfl, rfl⟩
    exact .nil _

theorem reads_skip {t : T} {ss : List (Symbol T N)} {b : Builder G.Value ss R}
    {w : List (Lexeme T)} {r : R} :
    G.Reads (.skip t :: ss) b w r ↔ ∃ x w', w = ⟨t, x⟩ :: w' ∧ G.Reads ss b w' r := by
  constructor
  · intro h
    cases h with
    | skip h => exact ⟨_, _, rfl, h⟩
  · rintro ⟨x, w', rfl, h⟩
    exact .skip h

theorem reads_take {t : T} {ss : List (Symbol T N)} {b : Text → Builder G.Value ss R}
    {w : List (Lexeme T)} {r : R} :
    G.Reads (.take t :: ss) b w r ↔ ∃ x w', w = ⟨t, x⟩ :: w' ∧ G.Reads ss (b x) w' r := by
  constructor
  · intro h
    cases h with
    | take h => exact ⟨_, _, rfl, h⟩
  · rintro ⟨x, w', rfl, h⟩
    exact .take h

theorem reads_node {n : N} {ss : List (Symbol T N)} {b : G.Value n → Builder G.Value ss R}
    {w : List (Lexeme T)} {r : R} :
    G.Reads (.node n :: ss) b w r ↔
      ∃ a ∈ G.alternatives n, ∃ u v w', w = u ++ w' ∧ G.Reads a.symbols a.build u v ∧
        G.Reads ss (b v) w' r := by
  constructor
  · intro h
    cases h with
    | node ha hu hw => exact ⟨_, ha, _, _, _, rfl, hu, hw⟩
  · rintro ⟨a, ha, u, v, w', rfl, hu, hw⟩
    exact .node ha hu hw

/-- Reading a sequence of symbols and handing its value on is reading one part after the other. -/
theorem reads_compose {ss rest : List (Symbol T N)} {first : Builder G.Value ss S}
    {next : S → Builder G.Value rest R} {w : List (Lexeme T)} {r : R} :
    G.Reads (ss ++ rest) (Builder.compose ss first next) w r ↔
      ∃ u v w', w = u ++ w' ∧ G.Reads ss first u v ∧ G.Reads rest (next v) w' r := by
  induction ss generalizing w with
  | nil =>
    constructor
    · intro h
      exact ⟨[], first, w, rfl, .nil _, h⟩
    · rintro ⟨u, v, w', rfl, hu, hw⟩
      obtain ⟨rfl, rfl⟩ := reads_nil.mp hu
      exact hw
  | cons s ss ih =>
    cases s with
    | skip t =>
      constructor
      · intro h
        obtain ⟨x, w₁, rfl, h₁⟩ := reads_skip.mp h
        obtain ⟨u, v, w', rfl, hu, hw⟩ := ih.mp h₁
        exact ⟨_, v, w', (List.cons_append ..).symm, .skip hu, hw⟩
      · rintro ⟨u, v, w', rfl, hu, hw⟩
        obtain ⟨x, u₁, rfl, hu₁⟩ := reads_skip.mp hu
        exact .skip (ih.mpr ⟨u₁, v, w', rfl, hu₁, hw⟩)
    | take t =>
      constructor
      · intro h
        obtain ⟨x, w₁, rfl, h₁⟩ := reads_take.mp h
        obtain ⟨u, v, w', rfl, hu, hw⟩ := ih.mp h₁
        exact ⟨_, v, w', (List.cons_append ..).symm, .take hu, hw⟩
      · rintro ⟨u, v, w', rfl, hu, hw⟩
        obtain ⟨x, u₁, rfl, hu₁⟩ := reads_take.mp hu
        exact .take (ih.mpr ⟨u₁, v, w', rfl, hu₁, hw⟩)
    | node n =>
      constructor
      · intro h
        obtain ⟨a, ha, p, q, w₁, rfl, hp, h₁⟩ := reads_node.mp h
        obtain ⟨u, v, w', rfl, hu, hw⟩ := ih.mp h₁
        exact ⟨p ++ u, v, w', (List.append_assoc ..).symm, .node ha hp hu, hw⟩
      · rintro ⟨u, v, w', rfl, hu, hw⟩
        obtain ⟨a, ha, p, q, u₁, rfl, hp, hu₁⟩ := reads_node.mp hu
        rw [List.append_assoc]
        exact .node ha hp (ih.mpr ⟨u₁, v, w', rfl, hu₁, hw⟩)

end Reads

end Grammar

end MemberAccess
