import MemberAccess.Proofs.Grammar.Preference
import MemberAccess.Proofs.Grammar.Unambiguous

/-!
# Grammars in which each reading covers the same lexemes

A stream can be read in several ways and yet lose the same lexemes in all of them. It does if
alternatives that can be read from one stream cover the same part of it.
-/

namespace MemberAccess

variable {T N : Type}

namespace Grammar
variable {G : Grammar T N}

/-- What is read from a stream as either of the symbols is the same, where `P` holds of the stream
and of what is left. -/
def Alike (G : Grammar T N) (P : List (Lexeme T) → List (Lexeme T) → Prop)
    (ss ss' : List (Symbol T N)) : Prop :=
  ∀ u u' r r', G.Spans ss u → G.Spans ss' u' → u ++ r = u' ++ r' → P (u ++ r) r → P (u ++ r) r' →
    u = u'

/-- No other lexemes can be read from the stream, where `P` holds of it and of what is left. -/
def Delimited (G : Grammar T N) (P : List (Lexeme T) → List (Lexeme T) → Prop) (n : N)
    (w : List (Lexeme T)) : Prop :=
  ∀ w' r r', G.Is n w' → w ++ r = w' ++ r' → P (w ++ r) r → P (w ++ r) r' → w = w'

section
variable {P : List (Lexeme T) → List (Lexeme T) → Prop} {ss ss' : List (Symbol T N)}

theorem Apart.alike (h : G.Apart P ss ss') : G.Alike P ss ss' :=
  fun u u' r r' hu hu' he hr hr' => (h u u' r r' hu hu' he hr hr').elim

theorem Alike.symm (h : G.Alike P ss ss') : G.Alike P ss' ss :=
  fun u u' r r' hu hu' he hr hr' => (h u' u r' r hu' hu he.symm (he ▸ hr') (he ▸ hr)).symm

end

/-- Where each nonterminal is delimited, so are the symbols. -/
theorem eq_of_spans {P : N → List (Lexeme T) → List (Lexeme T) → Prop} {R : Type}
    {ss : List (Symbol T N)} {b : Builder G.Value ss R} {w w' r r' : List (Lexeme T)} {v : R}
    (h : ReadsBy (fun n w v => G.Derives n w v ∧ G.Delimited (P n) n w) ss b w v)
    (h' : G.Spans ss w') (he : w ++ r = w' ++ r') (hr : G.Each P ss (w ++ r) r)
    (hr' : G.Each P ss (w ++ r) r') : w = w' := by
  induction ss generalizing w w' with
  | nil =>
    obtain ⟨rfl, -⟩ := h
    obtain rfl := h'
    rfl
  | cons x ss ih =>
    cases x with
    | skip t | take t =>
      obtain ⟨x, w, rfl, h⟩ := h
      obtain ⟨x', w', rfl, h'⟩ := h'
      obtain ⟨hx, hw⟩ := List.cons.inj he
      rw [hx, ih h h' hw (hr x _ rfl) (hr' x _ rfl)]
    | node n =>
      obtain ⟨u, a, y, rfl, ⟨hd, hs⟩, h⟩ := h
      obtain ⟨u', y', rfl, hu', h'⟩ := h'
      have hy := spans_of_readsBy (h.mono fun _ _ _ h => h.1)
      rw [List.append_assoc] at he hr hr'
      rw [List.append_assoc] at he
      obtain ⟨hP, hr⟩ := hr u y rfl ⟨a, hd⟩ hy
      obtain ⟨hP', hr'⟩ := hr' u' y' he hu' h'
      obtain rfl := hs u' (y ++ r) (y' ++ r') hu' he hP hP'
      have he := List.append_cancel_left he
      rw [ih h h' he hr (he ▸ hr')]

theorem Each.of_append {P : N → List (Lexeme T) → List (Lexeme T) → Prop}
    {xs ys : List (Symbol T N)} {s y r : List (Lexeme T)} (h : G.Each P (xs ++ ys) s r)
    (hy : G.Spans ys y) : G.Each P xs s (y ++ r) := by
  induction xs generalizing s with
  | nil => trivial
  | cons x xs ih =>
    cases x with
    | skip t | take t => exact fun x s' hs => ih (h x s' hs)
    | node n =>
      intro u z hs hu hz
      obtain ⟨hP, h⟩ := h u (z ++ y) (by rw [hs, List.append_assoc]) hu
        (spans_append.mpr ⟨z, y, rfl, hz, hy⟩)
      rw [List.append_assoc] at hP h
      exact ⟨hP, ih h⟩

/-- The first symbols of a sequence cover the same lexemes, whatever is read as the others. -/
theorem eq_of_spans_append {P : N → List (Lexeme T) → List (Lexeme T) → Prop}
    (hdelimited : ∀ n w, G.Is n w → G.Delimited (P n) n w) {xs ys : List (Symbol T N)}
    {u u' v v' r r' : List (Lexeme T)} (hu : G.Spans xs u) (hv : G.Spans ys v)
    (hu' : G.Spans xs u') (hv' : G.Spans ys v') (he : u ++ (v ++ r) = u' ++ (v' ++ r'))
    (hr : G.Each P (xs ++ ys) (u ++ (v ++ r)) r) (hr' : G.Each P (xs ++ ys) (u ++ (v ++ r)) r') :
    u = u' := by
  obtain ⟨b⟩ := nonempty_builder G.Value xs
  obtain ⟨x, hx⟩ := hu.exists_reads b
  have hx : ReadsBy (fun n w v => G.Derives n w v ∧ G.Delimited (P n) n w) xs b u x :=
    (reads_iff_readsBy.mp hx).mono fun n w v h => ⟨h, hdelimited n w ⟨v, h⟩⟩
  exact eq_of_spans hx hu' he (hr.of_append hv) (he ▸ (he ▸ hr').of_append hv')

variable {C : Type} {inside : C → N → N → C}
  {P : C → N → List (Lexeme T) → List (Lexeme T) → Prop}

/-- If `P` passes from a nonterminal to those of its alternatives, and alternatives are alike, then
the stream determines how much of it is read. -/
theorem delimited
    (heach : ∀ {c n a s r}, a ∈ G.alternatives n → P c n s r →
      G.Each (fun m => P (inside c n m) m) a.symbols s r)
    (halike : ∀ c n, (G.alternatives n).Pairwise fun a a' => G.Alike (P c n) a.symbols a'.symbols)
    {n : N} {w : List (Lexeme T)} (h : G.Is n w) (c : C) : G.Delimited (P c n) n w := by
  obtain ⟨v, h⟩ := h
  refine (h.induct (P := fun n w v => G.Derives n w v ∧ ∀ c, G.Delimited (P c n) n w) ?_).2 c
  intro n a w v ha h
  have hd := h.mono (Q := G.Derives) fun _ _ _ h => h.1
  refine ⟨derives_iff.mpr ⟨a, ha, hd⟩, ?_⟩
  intro c w' r r' h' he hr hr'
  obtain ⟨a', ha', h'⟩ := is_iff.mp h'
  by_cases haa : a = a'
  · subst haa
    exact eq_of_spans (h.mono fun m u v h => ⟨h.1, h.2 (inside c n m)⟩) h' he (heach ha hr)
      (he ▸ heach ha (he ▸ hr'))
  · have : Std.Symm fun a a' : Alternative T G.Value n => G.Alike (P c n) a.symbols a'.symbols :=
      ⟨fun _ _ h => h.symm⟩
    exact (halike c n).forall ha ha' haa w w' r r' (spans_of_readsBy hd) h' he hr hr'

/-- Two places of a list are one if neither element comes before the other. -/
theorem eq_of_places {X : Type} {before after before' after' : List X} {a a' : X}
    (h : before ++ a :: after = before' ++ a' :: after') (ha : a ∉ before') (ha' : a' ∉ before) :
    a = a' := by
  rcases List.append_eq_append_iff.mp h with ⟨l, rfl, hl⟩ | ⟨l, rfl, hl⟩
  · cases l with
    | nil => exact (List.cons.inj hl).1
    | cons x l =>
      obtain ⟨rfl, -⟩ := List.cons.inj hl
      exact absurd (List.mem_append_right _ List.mem_cons_self) ha
  · cases l with
    | nil => exact (List.cons.inj hl).1.symm
    | cons x l =>
      obtain ⟨rfl, -⟩ := List.cons.inj hl
      exact absurd (List.mem_append_right _ List.mem_cons_self) ha'

/-- If the stream determines how much of it is read, what comes after the symbols has no part in
which reading is preferred. -/
theorem Prefers.eq
    (heach : ∀ {c n a s r}, a ∈ G.alternatives n → P c n s r →
      G.Each (fun m => P (inside c n m) m) a.symbols s r)
    (hdelimited : ∀ {n w}, G.Is n w → ∀ c, G.Delimited (P c n) n w) {R : Type}
    {ss k k' : List (Symbol T N)} {b : Builder G.Value ss R} {w w' z z' s s' : List (Lexeme T)}
    {v v' : R} (h : G.Prefers ss b w v k z) (h' : G.Prefers ss b w' v' k' z') (hz : G.Spans k z)
    (hz' : G.Spans k' z') (he : w ++ s = w' ++ s') {c : N → C}
    (hs : G.Each (fun m => P (c m) m) ss (w ++ s) s)
    (hs' : G.Each (fun m => P (c m) m) ss (w ++ s) s') : w = w' ∧ v = v' := by
  induction h generalizing w' k' z' s s' c with
  | nil v =>
    obtain ⟨rfl, rfl⟩ := prefers_nil.mp h'
    exact ⟨rfl, rfl⟩
  | skip _ ih =>
    obtain ⟨x, u', rfl, hu'⟩ := prefers_skip.mp h'
    obtain ⟨hx, hu⟩ := List.cons.inj he
    obtain ⟨rfl, rfl⟩ := ih hu' hz hz' hu (hs _ _ rfl) (hs' _ _ rfl)
    exact ⟨by rw [hx], rfl⟩
  | take _ ih =>
    obtain ⟨x, u', rfl, hu'⟩ := prefers_take.mp h'
    obtain ⟨hx, hu⟩ := List.cons.inj he
    obtain ⟨-, rfl⟩ := Lexeme.mk.inj hx
    obtain ⟨rfl, rfl⟩ := ih hu' hz hz' hu (hs _ _ rfl) (hs' _ _ rfl)
    exact ⟨rfl, rfl⟩
  | @node _ n ss _ _ before _ a u w _ x _ ha hn hu hw ihu ihw =>
    obtain ⟨before', a', after', u', x', w', ha', rfl, hn', hu', hw'⟩ := prefers_node.mp h'
    have hiu : G.Is n u := is_iff.mpr ⟨a, ha ▸ by simp, hu.reads.spans⟩
    have hiu' : G.Is n u' := is_iff.mpr ⟨a', ha' ▸ by simp, hu'.reads.spans⟩
    rw [List.append_assoc] at he hs hs'
    rw [List.append_assoc] at he
    obtain ⟨hP, hs⟩ := hs u w rfl hiu hw.reads.spans
    obtain ⟨hP', hs'⟩ := hs' u' w' he hiu' hw'.reads.spans
    obtain rfl := hdelimited hiu _ u' _ _ hiu' he hP hP'
    have hrest := spans_append.mpr ⟨w, _, rfl, hw.reads.spans, hz⟩
    have hrest' := spans_append.mpr ⟨w', _, rfl, hw'.reads.spans, hz'⟩
    obtain rfl : a = a' := eq_of_places (ha.symm.trans ha')
      (fun hm => hn' a hm (spans_append.mpr ⟨u, _, rfl, hu.reads.spans, hrest'⟩))
      (fun hm => hn a' hm (spans_append.mpr ⟨u, _, rfl, hu'.reads.spans, hrest⟩))
    have ha : a ∈ G.alternatives n := ha ▸ by simp
    obtain ⟨-, rfl⟩ := ihu hu' hrest hrest' he (heach ha hP) (heach ha hP')
    have he := List.append_cancel_left he
    obtain ⟨rfl, rfl⟩ := ihw hw' hz hz' he hs (he ▸ hs')
    exact ⟨rfl, rfl⟩

end Grammar

end MemberAccess
