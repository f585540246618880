import MemberAccess.Proofs.Grammar.Induction

/-!
# First lexemes

A table of the terminals with which each nonterminal can begin, and of those nonterminals for which
nothing at all can be read, is right if it agrees with the alternatives one step deep.
-/

namespace MemberAccess

variable {T N : Type}

/-- The first lexeme, if there is one, is of one of the terminals. -/
def Heads (ts : List T) (w : List (Lexeme T)) : Prop := ∀ l ∈ w.head?, l.terminal ∈ ts

@[simp] theorem heads_nil (ts : List T) : Heads ts [] := by simp [Heads]

@[simp] theorem heads_cons {ts : List T} {l : Lexeme T} {w : List (Lexeme T)} :
    Heads ts (l :: w) ↔ l.terminal ∈ ts := by simp [Heads]

/-- The first lexeme, if there is one, is of none of the terminals. -/
def Avoids (ts : List T) (w : List (Lexeme T)) : Prop := ∀ l ∈ w.head?, l.terminal ∉ ts

@[simp] theorem avoids_cons {ts : List T} {l : Lexeme T} {w : List (Lexeme T)} :
    Avoids ts (l :: w) ↔ l.terminal ∉ ts := by simp [Avoids]

theorem Avoids.cons {ts : List T} {t : T} {x : Text} {w : List (Lexeme T)} (ht : t ∉ ts) :
    Avoids ts (⟨t, x⟩ :: w) := avoids_cons.mpr ht

theorem not_heads_cons {ts : List T} {t : T} {x : Text} {w : List (Lexeme T)} (ht : t ∉ ts) :
    ¬ Heads ts (⟨t, x⟩ :: w) := fun h => ht (heads_cons.mp h)

namespace Heads
variable {ts ts' : List T} {u w : List (Lexeme T)}

theorem mono (hs : ts ⊆ ts') (h : Heads ts w) : Heads ts' w := fun l hl => hs (h l hl)

theorem append (h : Heads ts u) (hw : u = [] → Heads ts w) : Heads ts (u ++ w) := by
  cases u with
  | nil => exact hw rfl
  | cons l u => exact h

theorem avoids (h : Heads ts w) (hd : ∀ t ∈ ts, t ∉ ts') : Avoids ts' w :=
  fun l hl => hd _ (h l hl)

/-- Lexemes that begin in two ways are none. -/
theorem eq_nil (h : Heads ts w) (h' : Heads ts' w) (hd : ∀ t ∈ ts, t ∉ ts') : w = [] := by
  cases w with
  | nil => rfl
  | cons l w => exact absurd (heads_cons.mp h') (hd l.terminal (heads_cons.mp h))

end Heads

namespace Grammar

section
variable (first : N → List T) (nullable : N → Bool)

/-- The terminals with which the symbols can begin. -/
def firsts : List (Symbol T N) → List T
  | [] => []
  | .skip t :: _ | .take t :: _ => [t]
  | .node n :: ss => first n ++ if nullable n then firsts ss else []

end

theorem nonempty_builder (Value : N → Type) (ss : List (Symbol T N)) :
    Nonempty (Builder Value ss Unit) := by
  induction ss with
  | nil => exact ⟨()⟩
  | cons s ss ih =>
    obtain ⟨b⟩ := ih
    cases s with
    | skip t => exact ⟨b⟩
    | take t => exact ⟨fun _ => b⟩
    | node n => exact ⟨fun _ => b⟩

/-- Terminals with which the nonterminals can begin, and those that can be read as nothing. -/
structure Table (G : Grammar T N) where
  first : N → List T
  nullable : N → Bool
  firsts_subset : ∀ {n : N} {a : Alternative T G.Value n}, a ∈ G.alternatives n →
    firsts first nullable a.symbols ⊆ first n
  nullable_of_mem : ∀ {n : N} {a : Alternative T G.Value n}, a ∈ G.alternatives n →
    a.symbols.all (·.isNullable nullable) → nullable n

namespace Table
variable {G : Grammar T N} (table : Table G)

abbrev firsts (ss : List (Symbol T N)) : List T := Grammar.firsts table.first table.nullable ss

def areNullable (ss : List (Symbol T N)) : Bool := ss.all (·.isNullable table.nullable)

variable {ss : List (Symbol T N)} {n : N} {w : List (Lexeme T)}

theorem fits_of_reads {R : Type} {b : Builder G.Value ss R} {r : R} (h : G.Reads ss b w r) :
    Heads (table.firsts ss) w ∧ (w = [] → table.areNullable ss) := by
  induction h with
  | nil r => simp [areNullable]
  | skip _ _ | take _ _ => simp [Grammar.firsts]
  | node ha _ _ ihu ih =>
    obtain ⟨hu, hnu⟩ := ihu
    obtain ⟨hw, hnw⟩ := ih
    have hn := fun h => table.nullable_of_mem ha (hnu h)
    constructor
    · refine Heads.append (hu.mono fun t ht => ?_) fun h => hw.mono fun t ht => ?_
      · simp [Grammar.firsts, table.firsts_subset ha ht]
      · simp [Grammar.firsts, hn h, ht]
    · intro h
      obtain ⟨h, h'⟩ := List.append_eq_nil_iff.mp h
      have := hnw h'
      simp_all [areNullable, Symbol.isNullable]

theorem fits_of_spans (h : G.Spans ss w) :
    Heads (table.firsts ss) w ∧ (w = [] → table.areNullable ss) := by
  obtain ⟨b⟩ := nonempty_builder G.Value ss
  obtain ⟨r, h⟩ := h.exists_reads b
  exact table.fits_of_reads h

theorem heads_of_spans (h : G.Spans ss w) : Heads (table.firsts ss) w := (table.fits_of_spans h).1

theorem heads_of_is (h : G.Is n w) : Heads (table.first n) w := by
  obtain ⟨v, a, ha, h⟩ := h
  exact (table.fits_of_reads h).1.mono (table.firsts_subset ha)

theorem ne_nil_of_is (h : G.Is n w) (hn : table.nullable n = false) : w ≠ [] := by
  rintro rfl
  obtain ⟨v, a, ha, h⟩ := h
  have := table.nullable_of_mem ha ((table.fits_of_reads h).2 rfl)
  simp [hn] at this

/-- What cannot be empty begins with one of the terminals of the table. -/
theorem exists_cons_of_is (h : G.Is n w) (hn : table.nullable n = false) :
    ∃ l w', w = l :: w' ∧ l.terminal ∈ table.first n := by
  have hw := table.ne_nil_of_is h hn
  have hh := table.heads_of_is h
  cases w with
  | nil => exact absurd rfl hw
  | cons l w' => exact ⟨l, w', rfl, heads_cons.mp hh⟩

end Table

end Grammar

end MemberAccess
