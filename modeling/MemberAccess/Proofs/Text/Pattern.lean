import Mathlib.Algebra.GroupWithZero.Nat
import Mathlib.Data.List.SplitLengths
import MemberAccess.Text.Basic

/-!
# Substitution by patterns

A pattern is a sequence of pieces. At a place of a text a piece gives the lengths that it can take,
those that it prefers first, and a match is the first choice of lengths that suits all pieces. A
substitution goes through a text from the left, replaces the match at the first place that has one,
and goes on behind it.
-/

namespace MemberAccess

/-- The lengths that can be taken from `after`, the preferred ones first, where `before` is all the
text before the place. -/
abbrev Piece := (before after : Text) → List Nat

namespace Piece

/-- One character that satisfies `p`. -/
def one (p : CodePoint → Bool) : Piece := fun _ after =>
  if Text.beginsWith p after then [1] else []

/-- Nothing, where the character before does not satisfy `p`. -/
def notAfter (p : CodePoint → Bool) : Piece := fun before _ =>
  if before.getLast?.any p then [] else [0]

/-- The one and then the other. -/
def then_ (a b : Piece) : Piece := fun before after =>
  (a before after).flatMap fun n => (b (before ++ after.take n) (after.drop n)).map (n + ·)

/-- The piece `k` times. -/
def times (a : Piece) : (k : Nat) → Piece
  | 0 => fun _ _ => [0]
  | k + 1 => a.then_ (a.times k)

/-- The piece up to `k` times, as often as possible first. -/
def upTo (a : Piece) : (k : Nat) → Piece
  | 0 => fun _ _ => [0]
  | k + 1 => fun before after => a.then_ (a.upTo k) before after ++ [0]

/-- The piece any number of times, as often as possible first. It takes at least one character, so
there is no more of it than of the text. -/
def many (a : Piece) : Piece := fun before after => a.upTo after.length before after

/-- The piece at least once. -/
def some (a : Piece) : Piece := a.then_ a.many

end Piece

namespace Pattern

/-- The lengths of the pieces in each match, the preferred match first. -/
def choices : List Piece → (before after : Text) → List (List Nat)
  | [], _, _ => [[]]
  | a :: pieces, before, after => (a before after).flatMap fun n =>
    (choices pieces (before ++ after.take n) (after.drop n)).map (n :: ·)

/-- Replaces the matches in a text that stands after `before`. A match is replaced by what
`replacement` makes of the parts that the pieces have taken; its further characters are `inside`. -/
def substituteFrom (pieces : List Piece) (replacement : List Text → Text) (before : Text)
    (inside : Nat) : Text → Text
  | [] => []
  | c :: rest =>
    match inside with
    | n + 1 => substituteFrom pieces replacement (before ++ [c]) n rest
    | 0 =>
      match (choices pieces before (c :: rest)).head? with
      | some lengths => replacement (lengths.splitLengths (c :: rest)) ++
        substituteFrom pieces replacement (before ++ [c]) (lengths.sum - 1) rest
      | none => c :: substituteFrom pieces replacement (before ++ [c]) 0 rest

/-- The text with all matches replaced. -/
def substitute (pieces : List Piece) (replacement : List Text → Text) (t : Text) : Text :=
  substituteFrom pieces replacement [] 0 t

end Pattern

section Run
variable {p : CodePoint → Bool} {t : Text} {n : Nat}

/-- The text begins with `n` characters that satisfy `p`. -/
def BeginsWithRun (p : CodePoint → Bool) (n : Nat) (t : Text) : Prop :=
  ∃ x r, t = x ++ r ∧ x.length = n ∧ ∀ c ∈ x, p c = true

theorem beginsWithRun_zero : BeginsWithRun p 0 t := ⟨[], t, rfl, rfl, by simp⟩

theorem beginsWithRun_succ {c : CodePoint} :
    BeginsWithRun p (n + 1) (c :: t) ↔ p c = true ∧ BeginsWithRun p n t := by
  constructor
  · rintro ⟨x, r, he, hn, hx⟩
    cases x with
    | nil => cases hn
    | cons d x =>
      obtain ⟨rfl, rfl⟩ := List.cons_eq_cons.mp he
      rw [List.forall_mem_cons] at hx
      exact ⟨hx.1, x, r, rfl, Nat.succ.inj hn, hx.2⟩
  · rintro ⟨hc, x, r, rfl, rfl, hx⟩
    exact ⟨c :: x, r, rfl, rfl, List.forall_mem_cons.mpr ⟨hc, hx⟩⟩

theorem BeginsWithRun.le (h : BeginsWithRun p n t) : n ≤ t.length := by
  obtain ⟨x, r, rfl, rfl, -⟩ := h
  simp

theorem beginsWithRun_add {m : Nat} :
    BeginsWithRun p (n + m) t ↔ BeginsWithRun p n t ∧ BeginsWithRun p m (t.drop n) := by
  induction n generalizing t with
  | zero => simp [beginsWithRun_zero]
  | succ n ih =>
    cases t with
    | nil =>
      have hnot : ∀ k, ¬ BeginsWithRun p (k + 1) [] := fun k h => Nat.not_succ_le_zero k h.le
      rw [Nat.add_right_comm]
      simp [hnot]
    | cons c t =>
      rw [Nat.add_right_comm, beginsWithRun_succ, beginsWithRun_succ, ih, and_assoc]
      rfl

/-- A run of one character is that character repeated. -/
theorem BeginsWithRun.exists_replicate {c : CodePoint} (h : BeginsWithRun p n t)
    (hp : ∀ d, p d = true → d = c) : ∃ r, t = List.replicate n c ++ r := by
  obtain ⟨x, r, rfl, rfl, hx⟩ := h
  exact ⟨r, congrArg (· ++ r) (List.eq_replicate_of_mem fun d hd => hp d (hx d hd))⟩

theorem beginsWithRun_replicate {c : CodePoint} {r : Text} (hc : p c = true) (n : Nat) :
    BeginsWithRun p n (List.replicate n c ++ r) :=
  ⟨_, r, rfl, List.length_replicate, fun _ hd => List.eq_of_mem_replicate hd ▸ hc⟩

end Run

namespace Piece
variable {p : CodePoint → Bool} {a : Piece} {before after : Text} {m n k : Nat}

theorem mem_notAfter :
    n ∈ notAfter p before after ↔ n = 0 ∧ ¬ before.getLast?.any p = true := by
  rw [notAfter]
  split <;> simp_all

theorem mem_then {b : Piece} : n ∈ a.then_ b before after ↔
    ∃ i ∈ a before after, ∃ j ∈ b (before ++ after.take i) (after.drop i), n = i + j := by
  simp only [then_, List.mem_flatMap, List.mem_map, eq_comm]

/-- The piece takes `m` characters that satisfy `p`, if there are as many, and nothing else. -/
structure IsRun (a : Piece) (p : CodePoint → Bool) (m : Nat) : Prop where
  mem_iff : ∀ {before after n}, n ∈ a before after ↔ n = m ∧ BeginsWithRun p m after

theorem IsRun.one (p : CodePoint → Bool) : (one p).IsRun p 1 := by
  constructor
  intro before after n
  cases after with
  | nil =>
    have hnot : ¬ BeginsWithRun p 1 [] := fun h => Nat.not_succ_le_zero 0 h.le
    simp [Piece.one, Text.beginsWith, hnot]
  | cons c after =>
    rw [beginsWithRun_succ]
    by_cases hc : p c = true
    · simp [Piece.one, Text.beginsWith, hc, beginsWithRun_zero]
    · simp [Piece.one, Text.beginsWith, hc]

theorem IsRun.times (h : a.IsRun p m) (k : Nat) : (a.times k).IsRun p (k * m) := by
  induction k with
  | zero => exact ⟨by simp [Piece.times, beginsWithRun_zero]⟩
  | succ k ih =>
    constructor
    intro before after n
    rw [Piece.times, mem_then, Nat.add_mul, Nat.one_mul, Nat.add_comm (k * m), beginsWithRun_add]
    constructor
    · rintro ⟨i, hi, j, hj, rfl⟩
      obtain ⟨rfl, hm⟩ := h.mem_iff.mp hi
      obtain ⟨rfl, hk⟩ := ih.mem_iff.mp hj
      exact ⟨rfl, hm, hk⟩
    · rintro ⟨rfl, hm, hk⟩
      exact ⟨m, h.mem_iff.mpr ⟨rfl, hm⟩, k * m, ih.mem_iff.mpr ⟨rfl, hk⟩, rfl⟩

theorem IsRun.mem_upTo (h : a.IsRun p m) :
    n ∈ a.upTo k before after ↔ ∃ j ≤ k, n = j * m ∧ BeginsWithRun p (j * m) after := by
  induction k generalizing before after n with
  | zero => simp [upTo, beginsWithRun_zero]
  | succ k ih =>
    rw [upTo, List.mem_append, mem_then, List.mem_singleton]
    constructor
    · rintro (⟨i, hi, j, hj, rfl⟩ | rfl)
      · obtain ⟨rfl, hm⟩ := h.mem_iff.mp hi
        obtain ⟨j, hjk, rfl, hrun⟩ := ih.mp hj
        refine ⟨j + 1, Nat.succ_le_succ hjk, by rw [Nat.add_mul]; omega, ?_⟩
        rw [Nat.add_mul, Nat.one_mul, Nat.add_comm (j * i), beginsWithRun_add]
        exact ⟨hm, hrun⟩
      · exact ⟨0, Nat.zero_le _, by simp, by simpa using beginsWithRun_zero⟩
    · rintro ⟨j, hjk, rfl, hj⟩
      cases j with
      | zero => exact .inr (Nat.zero_mul m)
      | succ j =>
        rw [Nat.add_mul, Nat.one_mul, Nat.add_comm (j * m), beginsWithRun_add] at hj
        have hrest : j * m ∈ a.upTo k (before ++ after.take m) (after.drop m) :=
          ih.mpr ⟨j, Nat.le_of_succ_le_succ hjk, rfl, hj.2⟩
        exact .inl ⟨m, h.mem_iff.mpr ⟨rfl, hj.1⟩, j * m, hrest, by rw [Nat.add_mul]; omega⟩

theorem IsRun.mem_many (h : a.IsRun p m) (hm : 0 < m) :
    n ∈ a.many before after ↔ ∃ j, n = j * m ∧ BeginsWithRun p (j * m) after := by
  rw [many, h.mem_upTo]
  constructor
  · rintro ⟨j, -, hj⟩
    exact ⟨j, hj⟩
  · rintro ⟨j, hn, hj⟩
    exact ⟨j, Nat.le_trans (Nat.le_mul_of_pos_right j hm) hj.le, hn, hj⟩

theorem IsRun.mem_some (h : a.IsRun p m) (hm : 0 < m) :
    n ∈ a.some before after ↔ ∃ j, n = (j + 1) * m ∧ BeginsWithRun p ((j + 1) * m) after := by
  have hadd : ∀ j, (j + 1) * m = m + j * m := fun j => by rw [Nat.add_mul]; omega
  rw [some, mem_then]
  constructor
  · rintro ⟨i, hi, n, hn, rfl⟩
    obtain ⟨rfl, hi⟩ := h.mem_iff.mp hi
    obtain ⟨j, rfl, hj⟩ := (h.mem_many hm).mp hn
    exact ⟨j, (hadd j).symm, by rw [hadd, beginsWithRun_add]; exact ⟨hi, hj⟩⟩
  · rintro ⟨j, rfl, hj⟩
    rw [hadd, beginsWithRun_add] at hj
    exact ⟨m, h.mem_iff.mpr ⟨rfl, hj.1⟩, j * m, (h.mem_many hm).mpr ⟨j, rfl, hj.2⟩, hadd j⟩

end Piece

namespace Pattern
variable {a : Piece} {pieces : List Piece} {replacement : List Text → Text} {before after : Text}

theorem mem_choices_nil {lengths : List Nat} :
    lengths ∈ choices [] before after ↔ lengths = [] := by
  simp [choices]

theorem mem_choices_cons {lengths : List Nat} : lengths ∈ choices (a :: pieces) before after ↔
    ∃ n ∈ a before after, ∃ ns ∈ choices pieces (before ++ after.take n) (after.drop n),
      lengths = n :: ns := by
  simp only [choices, List.mem_flatMap, List.mem_map, eq_comm]

/-- The characters of a match that has been replaced are passed over. -/
theorem substituteFrom_append (x rest : Text) :
    substituteFrom pieces replacement before x.length (x ++ rest) =
      substituteFrom pieces replacement (before ++ x) 0 rest := by
  induction x generalizing before with
  | nil => rw [List.length_nil, List.nil_append, List.append_nil]
  | cons c x ih =>
    rw [List.length_cons, List.cons_append, substituteFrom, ih, List.append_assoc,
      List.singleton_append]

theorem substituteFrom_match {lengths : List Nat} {x rest : Text} (hx : x ≠ [])
    (h : (choices pieces before (x ++ rest)).head? = some lengths) (hs : lengths.sum = x.length) :
    substituteFrom pieces replacement before 0 (x ++ rest) =
      replacement (lengths.splitLengths (x ++ rest)) ++
        substituteFrom pieces replacement (before ++ x) 0 rest := by
  obtain ⟨c, x, rfl⟩ := List.exists_cons_of_ne_nil hx
  rw [List.cons_append] at h ⊢
  rw [substituteFrom]
  simp only [h]
  rw [hs, List.length_cons, Nat.add_sub_cancel, substituteFrom_append, List.append_assoc,
    List.singleton_append]

theorem substituteFrom_no_match {c : CodePoint} (h : choices pieces before (c :: after) = []) :
    substituteFrom pieces replacement before 0 (c :: after) =
      c :: substituteFrom pieces replacement (before ++ [c]) 0 after := by
  rw [substituteFrom]
  simp only [h, List.head?_nil]

end Pattern

end MemberAccess
