import Mathlib.Data.List.Basic
import Mathlib.Data.List.Infix
import MemberAccess.Java.TypeName
import MemberAccess.Proofs.Text.Trim

/-!
# Erased names of types

Erasure takes from each line the stretch from a `<` to the last `>` of the line. What is left has no
such stretch, so that a second erasure takes nothing more.
-/

namespace MemberAccess.Java.TypeName

variable {c : CodePoint} {t x y r out : Text}

def firstLine (t : Text) : Text := t.takeWhile (!isLineFeed ·)

theorem firstLine_cons_of_ne (hc : c ≠ '\n') (t : Text) : firstLine (c :: t) = c :: firstLine t :=
  List.takeWhile_cons_of_pos (by simp [isLineFeed, hc])

theorem isPrefix_firstLine (t : Text) : firstLine t <+: t := List.takeWhile_prefix _

theorem lineFeed_notMem_firstLine (t : Text) : CodePoint.ofChar '\n' ∉ firstLine t := fun h => by
  have := List.mem_takeWhile_imp h
  simp [isLineFeed] at this

theorem firstLine_append (hx : CodePoint.ofChar '\n' ∉ x) (r : Text) :
    firstLine (x ++ r) = x ++ firstLine r :=
  List.takeWhile_append_of_pos fun c hc => by
    simpa [isLineFeed] using ne_of_mem_of_not_mem hc hx

theorem firstLine_append_of_mem (hx : CodePoint.ofChar '\n' ∈ x) (r : Text) :
    firstLine (x ++ r) = firstLine x := by
  induction x with
  | nil => cases hx
  | cons c x ih =>
    by_cases hc : c = '\n'
    · subst hc
      rfl
    · have hx := (List.mem_cons.mp hx).resolve_left (Ne.symm hc)
      rw [List.cons_append, firstLine_cons_of_ne hc, firstLine_cons_of_ne hc, ih hx]

/-- The line of a `>` can be cut behind it. -/
theorem greater_mem_firstLine_iff : CodePoint.ofChar '>' ∈ firstLine t ↔
    ∃ y r, t = y ++ CodePoint.ofChar '>' :: r ∧ CodePoint.ofChar '\n' ∉ y := by
  constructor
  · intro h
    obtain ⟨y, z, hyz⟩ := List.append_of_mem h
    obtain ⟨r, hr⟩ := isPrefix_firstLine t
    rw [hyz, List.append_assoc] at hr
    have hy : CodePoint.ofChar '\n' ∉ firstLine t := lineFeed_notMem_firstLine t
    rw [hyz, List.mem_append, not_or] at hy
    exact ⟨y, z ++ r, hr.symm, hy.1⟩
  · rintro ⟨y, r, rfl, hy⟩
    rw [firstLine_append hy, firstLine_cons_of_ne (by decide)]
    simp

theorem throughLastGreater_eq_zero_iff :
    throughLastGreater t = 0 ↔ CodePoint.ofChar '>' ∉ firstLine t := by
  rw [throughLastGreater, List.length_eq_zero_iff, List.dropWhile_eq_nil_iff]
  show (∀ c ∈ (firstLine t).reverse, _) ↔ _
  simp only [List.mem_reverse, isGreater, Bool.not_eq_true', beq_eq_false_iff_ne]
  exact ⟨fun h hm => h _ hm rfl, fun h c hc he => h (he ▸ hc)⟩

theorem throughLastGreater_eq (hy : CodePoint.ofChar '\n' ∉ y)
    (hr : CodePoint.ofChar '>' ∉ firstLine r) :
    throughLastGreater (y ++ CodePoint.ofChar '>' :: r) = y.length + 1 := by
  have hline : firstLine (y ++ CodePoint.ofChar '>' :: r) =
      y ++ CodePoint.ofChar '>' :: firstLine r := by
    rw [firstLine_append hy, firstLine_cons_of_ne (by decide)]
  have hrest : ∀ c ∈ (firstLine r).reverse, (!isGreater c) = true := by
    intro c hc
    simpa [isGreater] using ne_of_mem_of_not_mem (List.mem_reverse.mp hc) hr
  have hgreater : (CodePoint.ofChar '>' :: y.reverse).dropWhile (!isGreater ·) =
      CodePoint.ofChar '>' :: y.reverse := rfl
  show ((firstLine (y ++ CodePoint.ofChar '>' :: r)).reverse.dropWhile _).length = _
  rw [hline, List.reverse_append, List.reverse_cons, List.append_assoc,
    List.dropWhile_append_of_pos hrest, List.singleton_append, hgreater,
    List.length_cons, List.length_reverse]

theorem exists_lastGreater (h : CodePoint.ofChar '>' ∈ firstLine t) : ∃ y r,
    t = y ++ CodePoint.ofChar '>' :: r ∧ CodePoint.ofChar '\n' ∉ y ∧
      CodePoint.ofChar '>' ∉ firstLine r := by
  induction hn : t.length using Nat.strongRecOn generalizing t with
  | _ n ih =>
    obtain ⟨y, r, rfl, hy⟩ := greater_mem_firstLine_iff.mp h
    by_cases hr : CodePoint.ofChar '>' ∈ firstLine r
    · obtain ⟨y', r', rfl, hy', hr'⟩ := ih r.length (by simp at hn; omega) hr rfl
      have hgreater : CodePoint.ofChar '\n' ≠ '>' := by decide
      exact ⟨y ++ CodePoint.ofChar '>' :: y', r', by simp, by simp [hy, hy', hgreater], hr'⟩
    · exact ⟨y, r, rfl, hy, hr⟩

/-- The characters of a stretch that is being dropped are passed over. -/
theorem dropArguments_append (x r : Text) :
    dropArguments x.length (x ++ r) = dropArguments 0 r := by
  induction x with
  | nil => rfl
  | cons c x ih => rw [List.length_cons, List.cons_append, dropArguments, ih]

theorem dropArguments_stretch (hy : CodePoint.ofChar '\n' ∉ y)
    (hr : CodePoint.ofChar '>' ∉ firstLine r) :
    dropArguments 0 ('<' :: (y ++ CodePoint.ofChar '>' :: r)) = dropArguments 0 r := by
  have hthrough := throughLastGreater_eq hy hr
  have hpassed := dropArguments_append (y ++ [CodePoint.ofChar '>']) r
  rw [List.append_assoc, List.length_append] at hpassed
  rw [dropArguments, hthrough]
  exact hpassed

theorem dropArguments_keep (hc : c = '<' → CodePoint.ofChar '>' ∉ firstLine t) :
    dropArguments 0 (c :: t) = c :: dropArguments 0 t := by
  rw [dropArguments]
  refine if_neg fun h => ?_
  rw [Bool.and_eq_true, decide_eq_true_eq, bne_iff_ne, Ne, throughLastGreater_eq_zero_iff] at h
  exact h.2 (hc h.1)

/-- Read from the left, a `<` goes with all up to the last `>` of its line, if there is one after
it, and everything else stays. -/
inductive Dropped : Text → Text → Prop where
  | nil : Dropped [] []
  | stretch {y r out : Text} : CodePoint.ofChar '\n' ∉ y → CodePoint.ofChar '>' ∉ firstLine r →
    Dropped r out → Dropped ('<' :: (y ++ CodePoint.ofChar '>' :: r)) out
  | keep {c : CodePoint} {r out : Text} : (c = '<' → CodePoint.ofChar '>' ∉ firstLine r) →
    Dropped r out → Dropped (c :: r) (c :: out)

theorem Dropped.dropArguments_eq (h : Dropped t out) : dropArguments 0 t = out := by
  induction h with
  | nil => rfl
  | stretch hy hr _ ih => rw [dropArguments_stretch hy hr, ih]
  | keep hc _ ih => rw [dropArguments_keep hc, ih]

theorem exists_dropped (t : Text) : ∃ out, Dropped t out := by
  induction hn : t.length using Nat.strongRecOn generalizing t with
  | _ n ih =>
    cases t with
    | nil => exact ⟨[], .nil⟩
    | cons c r =>
      rw [List.length_cons] at hn
      by_cases h : c = '<' ∧ CodePoint.ofChar '>' ∈ firstLine r
      · obtain ⟨rfl, h⟩ := h
        obtain ⟨y, r, rfl, hy, hr⟩ := exists_lastGreater h
        obtain ⟨out, hout⟩ := ih r.length (by simp at hn; omega) r rfl
        exact ⟨out, .stretch hy hr hout⟩
      · obtain ⟨out, hout⟩ := ih r.length (by omega) r rfl
        exact ⟨c :: out, .keep (fun hc hm => h ⟨hc, hm⟩) hout⟩

theorem dropped_dropArguments (t : Text) : Dropped t (dropArguments 0 t) := by
  obtain ⟨out, h⟩ := exists_dropped t
  rwa [h.dropArguments_eq]

theorem dropArguments_append_of_notMem (hx : CodePoint.ofChar '<' ∉ x) (r : Text) :
    dropArguments 0 (x ++ r) = x ++ dropArguments 0 r := by
  induction x with
  | nil => rfl
  | cons c x ih =>
    rw [List.mem_cons, not_or] at hx
    rw [List.cons_append, dropArguments_keep fun hc => absurd hc.symm hx.1, ih hx.2,
      List.cons_append]

theorem dropArguments_of_notMem (hx : CodePoint.ofChar '<' ∉ x) : dropArguments 0 x = x := by
  have := dropArguments_append_of_notMem hx []
  rwa [List.append_nil, dropArguments, List.append_nil] at this

/-- Line feeds are never dropped. -/
theorem Dropped.count_lineFeed (h : Dropped t out) :
    out.count (CodePoint.ofChar '\n') = t.count (CodePoint.ofChar '\n') := by
  induction h with
  | nil => rfl
  | stretch hy _ _ ih =>
    have hless : (CodePoint.ofChar '<' == '\n') = false := by decide
    have hgreater : (CodePoint.ofChar '>' == '\n') = false := by decide
    simp [List.count_cons, List.count_eq_zero_of_not_mem hy, hless, hgreater, ih]
  | keep _ _ ih => rw [List.count_cons, List.count_cons, ih]

/-- No `<` has a `>` after it on its line. -/
def ArgumentFree (t : Text) : Prop :=
  ∀ y, CodePoint.ofChar '\n' ∉ y → ¬ CodePoint.ofChar '<' :: (y ++ [CodePoint.ofChar '>']) <:+: t

theorem ArgumentFree.mono (h : ArgumentFree t) (hx : x <:+: t) : ArgumentFree x :=
  fun y hy hi => h y hy (hi.trans hx)

theorem argumentFree_nil : ArgumentFree [] := fun y _ h => by simpa using h.length_le

theorem argumentFree_cons_iff : ArgumentFree (c :: t) ↔
    (c = '<' → CodePoint.ofChar '>' ∉ firstLine t) ∧ ArgumentFree t := by
  simp only [ArgumentFree, List.infix_cons_iff, List.cons_prefix_cons, not_or, forall_and]
  refine and_congr_left fun _ => ⟨?_, ?_⟩
  · rintro h rfl hm
    obtain ⟨y, r, rfl, hy⟩ := greater_mem_firstLine_iff.mp hm
    exact h y hy ⟨rfl, r, by simp⟩
  · rintro h y hy ⟨rfl, r, rfl⟩
    exact h rfl (greater_mem_firstLine_iff.mpr ⟨y, r, by simp, hy⟩)

theorem ArgumentFree.cons (hc : c ≠ '<') (h : ArgumentFree t) : ArgumentFree (c :: t) :=
  argumentFree_cons_iff.mpr ⟨fun he => absurd he hc, h⟩

theorem ArgumentFree.append_left (hx : CodePoint.ofChar '<' ∉ x) (h : ArgumentFree t) :
    ArgumentFree (x ++ t) := by
  induction x with
  | nil => exact h
  | cons c x ih =>
    rw [List.mem_cons, not_or] at hx
    exact (ih hx.2).cons (Ne.symm hx.1)

theorem ArgumentFree.append_singleton (hc : c ≠ '>') (h : ArgumentFree t) :
    ArgumentFree (t ++ [c]) := by
  intro y hy hi
  rcases List.infix_concat_iff.mp hi with hs | hi
  · have hlast := List.IsSuffix.getLast hs (by simp)
    simp at hlast
    exact hc hlast.symm
  · exact h y hy hi

/-- A line in which nothing ends stays as it is. -/
theorem Dropped.firstLine_eq (h : Dropped t out) (ht : CodePoint.ofChar '>' ∉ firstLine t) :
    firstLine out = firstLine t := by
  induction h with
  | nil => rfl
  | @stretch y r _ hy _ _ _ =>
    refine absurd (greater_mem_firstLine_iff.mpr ?_) ht
    have hless : CodePoint.ofChar '\n' ≠ '<' := by decide
    exact ⟨'<' :: y, r, rfl, by simp [hy, hless]⟩
  | @keep c r out _ _ ih =>
    by_cases hc : c = '\n'
    · subst hc
      rfl
    · rw [firstLine_cons_of_ne hc] at ht ⊢
      rw [firstLine_cons_of_ne hc, ih fun hm => ht (List.mem_cons_of_mem _ hm)]

theorem Dropped.argumentFree (h : Dropped t out) : ArgumentFree out := by
  induction h with
  | nil => exact argumentFree_nil
  | stretch _ _ _ ih => exact ih
  | keep hc h ih => exact argumentFree_cons_iff.mpr ⟨fun he => h.firstLine_eq (hc he) ▸ hc he, ih⟩

theorem ArgumentFree.dropped (h : ArgumentFree t) : Dropped t t := by
  induction t with
  | nil => exact .nil
  | cons c t ih =>
    obtain ⟨hc, ht⟩ := argumentFree_cons_iff.mp h
    exact .keep hc (ih ht)

theorem argumentFree_erase (t : Text) : ArgumentFree (erase t) :=
  (dropped_dropArguments t).argumentFree.mono (Text.isInfix_trim _)

/-- Only what is left by erasure is left as it is by erasure. -/
theorem erase_eq_self (h : ArgumentFree t) (ht : Text.IsTrimmed t) : erase t = t := by
  rw [erase, h.dropped.dropArguments_eq, Text.trim_of_isTrimmed ht]

theorem erase_erase (t : Text) : erase (erase t) = erase t :=
  erase_eq_self (argumentFree_erase t) (Text.isTrimmed_trim _)

end MemberAccess.Java.TypeName
