import Mathlib.Data.List.Pairwise
import MemberAccess.Proofs.Grammar.First

/-!
# Grammars without ambiguity

A nonterminal is read from a stream of lexemes and leaves the rest of it. If it is known of each
nonterminal from what streams it is read and what it leaves, and under these conditions no two of
its alternatives can be read from one stream, then the stream determines what is read and its value.
-/

namespace MemberAccess

variable {T N : Type}

namespace Grammar
variable {G : Grammar T N}

section
variable (G) (P Q : N → List (Lexeme T) → List (Lexeme T) → Prop)

/-- Wherever the symbols are read from `s` and leave `r`, `P` holds of each nonterminal among them
with the stream before it and the stream after it. -/
def Each : List (Symbol T N) → List (Lexeme T) → List (Lexeme T) → Prop
  | [], _, _ => True
  | .skip t :: ss, s, r | .take t :: ss, s, r => ∀ x s', s = ⟨t, x⟩ :: s' → Each ss s' r
  | .node n :: ss, s, r =>
    ∀ u y, s = u ++ (y ++ r) → G.Is n u → G.Spans ss y → P n s (y ++ r) ∧ Each ss (y ++ r) r

/-- No stream can be read as either of the symbols if `P` holds of it and of what is left. -/
def Apart (P : List (Lexeme T) → List (Lexeme T) → Prop) (ss ss' : List (Symbol T N)) : Prop :=
  ∀ u u' r r', G.Spans ss u → G.Spans ss' u' → u ++ r = u' ++ r' → P (u ++ r) r → P (u ++ r) r' →
    False

variable {G} {P Q} {ss ss' : List (Symbol T N)} {s r : List (Lexeme T)}

theorem Each.and (h : G.Each P ss s r) (h' : G.Each Q ss s r) :
    G.Each (fun n s r => P n s r ∧ Q n s r) ss s r := by
  induction ss generalizing s with
  | nil => trivial
  | cons x ss ih =>
    cases x with
    | skip t | take t => exact fun x s' hs => ih (h x s' hs) (h' x s' hs)
    | node n =>
      intro u y hs hu hy
      obtain ⟨hP, h⟩ := h u y hs hu hy
      obtain ⟨hQ, h'⟩ := h' u y hs hu hy
      exact ⟨⟨hP, hQ⟩, ih h h'⟩

theorem Each.mono (hPQ : ∀ n s r, P n s r → Q n s r) (h : G.Each P ss s r) : G.Each Q ss s r := by
  induction ss generalizing s with
  | nil => trivial
  | cons x ss ih =>
    cases x with
    | skip t | take t => exact fun x s' hs => ih (h x s' hs)
    | node n =>
      intro u y hs hu hy
      obtain ⟨hP, h⟩ := h u y hs hu hy
      exact ⟨hPQ n _ _ hP, ih h⟩

/-- What comes after the nonterminal among the symbols, for each place where it stands. -/
def afters [DecidableEq T] [DecidableEq N] (n : N) : List (Symbol T N) → List (List (Symbol T N))
  | [] => []
  | s :: ss => if s = .node n then ss :: afters n ss else afters n ss

theorem mem_of_mem_afters [DecidableEq T] [DecidableEq N] {n : N} {ys : List (Symbol T N)}
    (h : ys ∈ afters n ss) : .node n ∈ ss := by
  induction ss with
  | nil => cases h
  | cons x ss ih =>
    rw [afters] at h
    split at h
    · rename_i hx
      exact hx ▸ List.mem_cons_self
    · exact List.mem_cons_of_mem _ (ih h)

theorem Each.of_afters [DecidableEq T] [DecidableEq N]
    (h : ∀ n, ∀ ys ∈ afters n ss, ∀ s y, G.Spans ys y → P n s (y ++ r)) : G.Each P ss s r := by
  induction ss generalizing s with
  | nil => trivial
  | cons x ss ih =>
    have hss : ∀ n, ∀ ys ∈ afters n ss, ∀ s y, G.Spans ys y → P n s (y ++ r) := by
      intro n ys hys
      refine h n ys ?_
      rw [afters]
      split
      · exact List.mem_cons_of_mem _ hys
      · exact hys
    cases x with
    | skip t | take t => exact fun x s' _ => ih hss
    | node n =>
      intro u y _ _ hy
      refine ⟨h n ss ?_ _ y hy, ih hss⟩
      rw [afters, if_pos rfl]
      exact List.mem_cons_self

theorem Apart.symm {P : List (Lexeme T) → List (Lexeme T) → Prop} (h : G.Apart P ss ss') :
    G.Apart P ss' ss :=
  fun u u' r r' hu hu' he hr hr' => h u' u r' r hu' hu he.symm (he ▸ hr') (he ▸ hr)

theorem Apart.mono {P Q : List (Lexeme T) → List (Lexeme T) → Prop} (hPQ : ∀ s r, P s r → Q s r)
    (h : G.Apart Q ss ss') : G.Apart P ss ss' :=
  fun u u' r r' hu hu' he hr hr' => h u u' r r' hu hu' he (hPQ _ _ hr) (hPQ _ _ hr')

end

theorem ReadsBy.mono {Value : N → Type} {P Q : (n : N) → List (Lexeme T) → Value n → Prop}
    {R : Type} {ss : List (Symbol T N)} {b : Builder Value ss R} {w : List (Lexeme T)} {v : R}
    (hPQ : ∀ n w v, P n w v → Q n w v) (h : ReadsBy P ss b w v) : ReadsBy Q ss b w v := by
  induction ss generalizing w with
  | nil => exact h
  | cons x ss ih =>
    cases x with
    | skip t | take t =>
      obtain ⟨x, w', rfl, h⟩ := h
      exact ⟨x, w', rfl, ih h⟩
    | node n =>
      obtain ⟨u, v, w', rfl, hu, h⟩ := h
      exact ⟨u, v, w', rfl, hPQ n u v hu, ih h⟩

theorem spans_of_readsBy {R : Type} {ss : List (Symbol T N)} {b : Builder G.Value ss R}
    {w : List (Lexeme T)} {v : R} (h : ReadsBy G.Derives ss b w v) : G.Spans ss w :=
  (reads_iff_readsBy.mpr h).spans

/-- Nothing else can be read from the stream, where `P` holds of it and of what is left. -/
def Settled (G : Grammar T N) (P : List (Lexeme T) → List (Lexeme T) → Prop) (n : N)
    (w : List (Lexeme T)) (v : G.Value n) : Prop :=
  ∀ (w' : List (Lexeme T)) (v' : G.Value n) (r r' : List (Lexeme T)), G.Derives n w' v' →
    w ++ r = w' ++ r' → P (w ++ r) r → P (w ++ r) r' → w = w' ∧ v = v'

/-- Where each nonterminal is settled, so are the symbols. -/
theorem eq_of_readsBy {P : N → List (Lexeme T) → List (Lexeme T) → Prop} {R : Type}
    {ss : List (Symbol T N)} {b : Builder G.Value ss R} {w w' r r' : List (Lexeme T)} {v v' : R}
    (h : ReadsBy (fun n w v => G.Derives n w v ∧ G.Settled (P n) n w v) ss b w v)
    (h' : ReadsBy G.Derives ss b w' v') (he : w ++ r = w' ++ r') (hr : G.Each P ss (w ++ r) r)
    (hr' : G.Each P ss (w ++ r) r') : w = w' ∧ v = v' := by
  induction ss generalizing w w' with
  | nil =>
    obtain ⟨rfl, rfl⟩ := h
    obtain ⟨rfl, rfl⟩ := h'
    exact ⟨rfl, rfl⟩
  | cons x ss ih =>
    cases x with
    | skip t =>
      obtain ⟨x, w, rfl, h⟩ := h
      obtain ⟨x', w', rfl, h'⟩ := h'
      obtain ⟨hx, hw⟩ := List.cons.inj he
      obtain ⟨rfl, rfl⟩ := ih h h' hw (hr x _ rfl) (hr' x _ rfl)
      rw [hx]
      exact ⟨rfl, rfl⟩
    | take t =>
      obtain ⟨x, w, rfl, h⟩ := h
      obtain ⟨x', w', rfl, h'⟩ := h'
      obtain ⟨hx, hw⟩ := List.cons.inj he
      obtain rfl : x = x' := (Lexeme.mk.inj hx).2
      obtain ⟨rfl, rfl⟩ := ih h h' hw (hr x _ rfl) (hr' x _ rfl)
      exact ⟨rfl, rfl⟩
    | node n =>
      obtain ⟨u, a, y, rfl, ⟨hd, hs⟩, h⟩ := h
      obtain ⟨u', a', y', rfl, hd', h'⟩ := h'
      have hy := spans_of_readsBy (h.mono fun _ _ _ h => h.1)
      have hy' := spans_of_readsBy h'
      rw [List.append_assoc] at he hr hr'
      rw [List.append_assoc] at he
      obtain ⟨hP, hr⟩ := hr u y rfl ⟨a, hd⟩ hy
      obtain ⟨hP', hr'⟩ := hr' u' y' he ⟨a', hd'⟩ hy'
      obtain ⟨rfl, rfl⟩ := hs u' a' (y ++ r) (y' ++ r') hd' he hP hP'
      have he := List.append_cancel_left he
      obtain ⟨rfl, rfl⟩ := ih h h' he hr (he ▸ hr')
      exact ⟨rfl, rfl⟩

section
variable {C : Type} {inside : C → N → N → C}
  {P : C → N → List (Lexeme T) → List (Lexeme T) → Prop}

/-- If `P` passes from a nonterminal to those of its alternatives, and separates the alternatives,
then the stream determines what is read. Here `c` tells the places where a nonterminal can stand,
and `inside` the place of a nonterminal in an alternative of another. -/
theorem settled
    (heach : ∀ {c n a s r}, a ∈ G.alternatives n → P c n s r →
      G.Each (fun m => P (inside c n m) m) a.symbols s r)
    (hapart : ∀ c n, (G.alternatives n).Pairwise fun a a' => G.Apart (P c n) a.symbols a'.symbols)
    {n : N} {w : List (Lexeme T)} {v : G.Value n} (h : G.Derives n w v) (c : C) :
    G.Settled (P c n) n w v := by
  refine (h.induct (P := fun n w v => G.Derives n w v ∧ ∀ c, G.Settled (P c n) n w v) ?_).2 c
  intro n a w v ha h
  have hd := h.mono (Q := G.Derives) fun _ _ _ h => h.1
  refine ⟨derives_iff.mpr ⟨a, ha, hd⟩, ?_⟩
  intro c w' v' r r' h' he hr hr'
  obtain ⟨a', ha', h'⟩ := derives_iff.mp h'
  have haa : a = a' := by
    by_contra hne
    have : Std.Symm fun a a' : Alternative T G.Value n => G.Apart (P c n) a.symbols a'.symbols :=
      ⟨fun _ _ h => h.symm⟩
    exact (hapart c n).forall ha ha' hne w w' r r' (spans_of_readsBy hd) (spans_of_readsBy h') he
      hr hr'
  subst haa
  exact eq_of_readsBy (h.mono fun m u v h => ⟨h.1, h.2 (inside c n m)⟩) h' he (heach ha hr)
    (he ▸ heach ha (he ▸ hr'))

end

end Grammar

end MemberAccess
