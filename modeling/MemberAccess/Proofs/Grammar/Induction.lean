import MemberAccess.Grammar.Yields

/-!
# Induction over derivations

`ReadsBy P` reads symbols where `P` tells what the nonterminals stand for. A statement about
nonterminals that passes from the symbols of each alternative to the whole holds of all
derivations. `Spans` forgets the values.
-/

namespace MemberAccess

variable {T N : Type}

namespace Grammar

section
variable {Value : N → Type}

/-- The lexemes can be read as the symbols, with the value that `b` makes, if `P n u v` says that
`u` is an `n` with the value `v`. -/
def ReadsBy (P : (n : N) → List (Lexeme T) → Value n → Prop) {R : Type} :
    (ss : List (Symbol T N)) → Builder Value ss R → List (Lexeme T) → R → Prop
  | [], b, w, r => w = [] ∧ b = r
  | .skip t :: ss, b, w, r => ∃ x w', w = ⟨t, x⟩ :: w' ∧ ReadsBy P ss b w' r
  | .take t :: ss, b, w, r => ∃ x w', w = ⟨t, x⟩ :: w' ∧ ReadsBy P ss (b x) w' r
  | .node n :: ss, b, w, r => ∃ u v w', w = u ++ w' ∧ P n u v ∧ ReadsBy P ss (b v) w' r

variable {P Q : (n : N) → List (Lexeme T) → Value n → Prop} {R : Type}

@[simp] theorem readsBy_nil {b r : R} {w : List (Lexeme T)} :
    ReadsBy P [] b w r ↔ w = [] ∧ b = r := Iff.rfl

@[simp] theorem readsBy_skip {t : T} {ss : List (Symbol T N)} {b : Builder Value ss R}
    {w : List (Lexeme T)} {r : R} :
    ReadsBy P (.skip t :: ss) b w r ↔ ∃ x w', w = ⟨t, x⟩ :: w' ∧ ReadsBy P ss b w' r := Iff.rfl

@[simp] theorem readsBy_take {t : T} {ss : List (Symbol T N)} {b : Text → Builder Value ss R}
    {w : List (Lexeme T)} {r : R} :
    ReadsBy P (.take t :: ss) b w r ↔ ∃ x w', w = ⟨t, x⟩ :: w' ∧ ReadsBy P ss (b x) w' r :=
  Iff.rfl

@[simp] theorem readsBy_node {n : N} {s : Symbol T N} {ss : List (Symbol T N)}
    {b : Value n → Builder Value (s :: ss) R} {w : List (Lexeme T)} {r : R} :
    ReadsBy P (.node n :: s :: ss) b w r ↔
      ∃ u v w', w = u ++ w' ∧ P n u v ∧ ReadsBy P (s :: ss) (b v) w' r := Iff.rfl

@[simp] theorem readsBy_last {n : N} {b : Value n → R} {w : List (Lexeme T)} {r : R} :
    ReadsBy P [.node n] b w r ↔ ∃ v, P n w v ∧ b v = r := by
  constructor
  · rintro ⟨u, v, _, rfl, hu, rfl, rfl⟩
    exact ⟨v, by simpa using hu, rfl⟩
  · rintro ⟨v, hv, rfl⟩
    exact ⟨w, v, [], by simp, hv, rfl, rfl⟩

namespace ReadsBy

theorem nil (r : R) : ReadsBy P [] r [] r := ⟨rfl, rfl⟩

theorem skip {t : T} {x : Text} {ss : List (Symbol T N)} {b : Builder Value ss R}
    {w : List (Lexeme T)} {r : R} (h : ReadsBy P ss b w r) :
    ReadsBy P (.skip t :: ss) b (⟨t, x⟩ :: w) r := ⟨_, _, rfl, h⟩

theorem take {t : T} {x : Text} {ss : List (Symbol T N)} {b : Text → Builder Value ss R}
    {w : List (Lexeme T)} {r : R} (h : ReadsBy P ss (b x) w r) :
    ReadsBy P (.take t :: ss) b (⟨t, x⟩ :: w) r := ⟨_, _, rfl, h⟩

theorem node {n : N} {ss : List (Symbol T N)} {b : Value n → Builder Value ss R}
    {u w : List (Lexeme T)} {v : Value n} {r : R} (hu : P n u v) (h : ReadsBy P ss (b v) w r) :
    ReadsBy P (.node n :: ss) b (u ++ w) r := ⟨_, _, _, rfl, hu, h⟩

theorem last {n : N} {b : Value n → R} {u : List (Lexeme T)} {v : Value n} {r : R} (hu : P n u v)
    (hr : b v = r) : ReadsBy P [.node n] b u r := readsBy_last.mpr ⟨v, hu, hr⟩

end ReadsBy

end

variable {G : Grammar T N} {R : Type}

theorem reads_iff_readsBy {ss : List (Symbol T N)} {b : Builder G.Value ss R}
    {w : List (Lexeme T)} {r : R} : G.Reads ss b w r ↔ ReadsBy G.Derives ss b w r := by
  induction ss generalizing w with
  | nil => exact reads_nil
  | cons s ss ih =>
    cases s with
    | skip t => simp only [reads_skip, readsBy_skip, ih]
    | take t => simp only [reads_take, readsBy_take, ih]
    | node n =>
      simp only [reads_node, ih]
      constructor
      · rintro ⟨a, ha, u, v, w', rfl, hu, hw⟩
        exact ⟨u, v, w', rfl, ⟨a, ha, hu⟩, hw⟩
      · rintro ⟨u, v, w', rfl, ⟨a, ha, hu⟩, hw⟩
        exact ⟨a, ha, u, v, w', rfl, hu, hw⟩

theorem derives_iff {n : N} {w : List (Lexeme T)} {v : G.Value n} :
    G.Derives n w v ↔ ∃ a ∈ G.alternatives n, ReadsBy G.Derives a.symbols a.build w v := by
  simp only [Derives, reads_iff_readsBy]

theorem Reads.readsBy {P : (n : N) → List (Lexeme T) → G.Value n → Prop}
    (step : ∀ {n : N} {a : Alternative T G.Value n} {w : List (Lexeme T)} {v : G.Value n},
      a ∈ G.alternatives n → ReadsBy P a.symbols a.build w v → P n w v)
    {ss : List (Symbol T N)} {b : Builder G.Value ss R} {w : List (Lexeme T)} {r : R}
    (h : G.Reads ss b w r) : ReadsBy P ss b w r := by
  induction h with
  | nil r => exact ⟨rfl, rfl⟩
  | skip _ ih => exact ⟨_, _, rfl, ih⟩
  | take _ ih => exact ⟨_, _, rfl, ih⟩
  | node ha _ _ ihu ihw => exact ⟨_, _, _, rfl, step ha ihu, ihw⟩

/-- What passes from the symbols of an alternative to its nonterminal holds of all that is
derived. -/
theorem Derives.induct {P : (n : N) → List (Lexeme T) → G.Value n → Prop}
    (step : ∀ {n : N} {a : Alternative T G.Value n} {w : List (Lexeme T)} {v : G.Value n},
      a ∈ G.alternatives n → ReadsBy P a.symbols a.build w v → P n w v)
    {n : N} {w : List (Lexeme T)} {v : G.Value n} (h : G.Derives n w v) : P n w v := by
  obtain ⟨a, ha, h⟩ := h
  exact step ha (h.readsBy step)

/-- The lexemes derive from the nonterminal. -/
def Is (G : Grammar T N) (n : N) (w : List (Lexeme T)) : Prop := ∃ v, G.Derives n w v

/-- The lexemes can be read as the symbols. -/
def Spans (G : Grammar T N) : List (Symbol T N) → List (Lexeme T) → Prop
  | [], w => w = []
  | .skip t :: ss, w => ∃ x w', w = ⟨t, x⟩ :: w' ∧ Spans G ss w'
  | .take t :: ss, w => ∃ x w', w = ⟨t, x⟩ :: w' ∧ Spans G ss w'
  | .node n :: ss, w => ∃ u w', w = u ++ w' ∧ G.Is n u ∧ Spans G ss w'

@[simp] theorem spans_nil {w : List (Lexeme T)} : G.Spans [] w ↔ w = [] := Iff.rfl

@[simp] theorem spans_skip {t : T} {ss : List (Symbol T N)} {w : List (Lexeme T)} :
    G.Spans (.skip t :: ss) w ↔ ∃ x w', w = ⟨t, x⟩ :: w' ∧ G.Spans ss w' := Iff.rfl

@[simp] theorem spans_take {t : T} {ss : List (Symbol T N)} {w : List (Lexeme T)} :
    G.Spans (.take t :: ss) w ↔ ∃ x w', w = ⟨t, x⟩ :: w' ∧ G.Spans ss w' := Iff.rfl

@[simp] theorem spans_node {n : N} {ss : List (Symbol T N)} {w : List (Lexeme T)} :
    G.Spans (.node n :: ss) w ↔ ∃ u w', w = u ++ w' ∧ G.Is n u ∧ G.Spans ss w' := Iff.rfl

theorem spans_singleton {n : N} {w : List (Lexeme T)} : G.Spans [.node n] w ↔ G.Is n w := by
  simp

theorem spans_append {xs ys : List (Symbol T N)} {w : List (Lexeme T)} :
    G.Spans (xs ++ ys) w ↔ ∃ u v, w = u ++ v ∧ G.Spans xs u ∧ G.Spans ys v := by
  induction xs generalizing w with
  | nil =>
    constructor
    · exact fun h => ⟨[], w, rfl, rfl, h⟩
    · rintro ⟨_, v, rfl, rfl, h⟩
      exact h
  | cons s xs ih =>
    cases s with
    | skip t | take t =>
      simp only [List.cons_append, spans_skip, spans_take, ih]
      constructor
      · rintro ⟨x, w', rfl, u, v, rfl, hu, hv⟩
        exact ⟨⟨t, x⟩ :: u, v, rfl, ⟨x, u, rfl, hu⟩, hv⟩
      · rintro ⟨_, v, rfl, ⟨x, u, rfl, hu⟩, hv⟩
        exact ⟨x, u ++ v, rfl, u, v, rfl, hu, hv⟩
    | node n =>
      simp only [List.cons_append, spans_node, ih]
      constructor
      · rintro ⟨p, w', rfl, hp, u, v, rfl, hu, hv⟩
        exact ⟨p ++ u, v, (List.append_assoc ..).symm, ⟨p, u, rfl, hp, hu⟩, hv⟩
      · rintro ⟨_, v, rfl, ⟨p, u, rfl, hp, hu⟩, hv⟩
        exact ⟨p, u ++ v, List.append_assoc .., hp, u, v, rfl, hu, hv⟩

theorem Reads.spans {ss : List (Symbol T N)} {b : Builder G.Value ss R} {w : List (Lexeme T)}
    {r : R} (h : G.Reads ss b w r) : G.Spans ss w := by
  induction h with
  | nil r => rfl
  | skip _ ih => exact ⟨_, _, rfl, ih⟩
  | take _ ih => exact ⟨_, _, rfl, ih⟩
  | node ha hu _ _ ih => exact ⟨_, _, rfl, ⟨_, _, ha, hu⟩, ih⟩

theorem Spans.exists_reads {ss : List (Symbol T N)} {w : List (Lexeme T)} (h : G.Spans ss w)
    (b : Builder G.Value ss R) : ∃ r, G.Reads ss b w r := by
  induction ss generalizing w with
  | nil =>
    obtain rfl := h
    exact ⟨b, .nil _⟩
  | cons s ss ih =>
    cases s with
    | skip t =>
      obtain ⟨x, w', rfl, h⟩ := h
      obtain ⟨r, hr⟩ := ih h b
      exact ⟨r, .skip hr⟩
    | take t =>
      obtain ⟨x, w', rfl, h⟩ := h
      obtain ⟨r, hr⟩ := ih h (b x)
      exact ⟨r, .take hr⟩
    | node n =>
      obtain ⟨u, w', rfl, ⟨v, hu⟩, h⟩ := h
      obtain ⟨r, hr⟩ := ih h (b v)
      obtain ⟨a, ha, hu⟩ := hu
      exact ⟨r, .node ha hu hr⟩

theorem is_iff {n : N} {w : List (Lexeme T)} :
    G.Is n w ↔ ∃ a ∈ G.alternatives n, G.Spans a.symbols w := by
  constructor
  · rintro ⟨v, a, ha, h⟩
    exact ⟨a, ha, h.spans⟩
  · rintro ⟨a, ha, h⟩
    obtain ⟨v, hv⟩ := h.exists_reads a.build
    exact ⟨v, a, ha, hv⟩

end Grammar

end MemberAccess
