import MemberAccess.Text.Lines

/-!
# What indentation changes

Indentation only puts the characters of its margin at the beginning of a text and after line
boundaries.
-/

namespace MemberAccess.Text

variable {p : CodePoint → Bool}

/-- The second text is the first with characters that satisfy `p` put in after line boundaries, and
at the beginning if `atLineStart` says so. -/
inductive Padded (p : CodePoint → Bool) : (atLineStart : Bool) → Text → Text → Prop where
  | nil {b : Bool} : Padded p b [] []
  | pad {c : CodePoint} {t t' : Text} :
    p c = true → Padded p true t t' → Padded p true t (c :: t')
  | keep {b : Bool} {c : CodePoint} {t t' : Text} :
    Padded p c.isLineBoundary t t' → Padded p b (c :: t) (c :: t')

theorem Padded.append {x t t' : Text} (hx : x.all p = true) (h : Padded p true t t') :
    Padded p true t (x ++ t') := by
  induction x with
  | nil => exact h
  | cons c x ih =>
    rw [List.all_cons, Bool.and_eq_true] at hx
    exact .pad hx.1 (ih hx.2)

theorem Padded.mono {b b' : Bool} (hb : b = true → b' = true) {t t' : Text}
    (h : Padded p b t t') : Padded p b' t t' := by
  induction h generalizing b' with
  | nil => exact .nil
  | pad hc _ ih =>
    obtain rfl := hb rfl
    exact .pad hc (ih id)
  | keep h => exact .keep h

theorem Padded.of_false {b : Bool} {t t' : Text} (h : Padded p false t t') : Padded p b t t' :=
  h.mono fun hb => by cases hb

theorem Padded.refl {b : Bool} (t : Text) : Padded p b t t := by
  induction t generalizing b with
  | nil => exact .nil
  | cons c t ih => exact .keep ih

theorem Padded.append_left {b : Bool} (x : Text) {t t' : Text} (h : Padded p false t t') :
    Padded p b (x ++ t) (x ++ t') := by
  induction x generalizing b with
  | nil => exact h.of_false
  | cons c x ih => exact .keep ih

theorem Padded.append_right {b : Bool} {t t' : Text} (h : Padded p b t t') (x : Text) :
    Padded p b (t ++ x) (t' ++ x) := by
  induction h with
  | nil => exact .refl x
  | pad hc _ ih => exact .pad hc ih
  | keep _ ih => exact .keep ih

theorem lines_eq_nil {t : Text} : lines t = [] ↔ t = [] := by
  cases t with
  | nil => simp [lines]
  | cons c t =>
    rw [lines]
    split
    · simp
    · split <;> simp

/-- A line with the margin before it, unless it is blank. -/
def indentLine (margin line : Text) : Text := if line.isBlank then line else margin ++ line

theorem padded_indentLine {margin line t rest : Text} (hm : margin.all p = true)
    (h : Padded p true t (line ++ rest)) : Padded p true t (indentLine margin line ++ rest) := by
  unfold indentLine
  split
  · exact h
  · rw [List.append_assoc]
    exact .append hm h

theorem padded_lines {margin t : Text} (hm : margin.all p = true) (b : Bool) {line : Text}
    {more : List Text} (h : lines t = line :: more) :
    Padded p b t (line ++ more.flatMap (indentLine margin)) := by
  induction t generalizing b line more with
  | nil => cases h
  | cons c t ih =>
    rw [lines] at h
    split at h
    · obtain ⟨rfl, rfl⟩ := List.cons.inj h
      have hc : c.isLineBoundary = true := by simp_all
      apply Padded.keep
      rw [hc]
      show Padded p true t ((lines t).flatMap (indentLine margin))
      cases hl : lines t with
      | nil =>
        obtain rfl := lines_eq_nil.mp hl
        exact .nil
      | cons line' more' => exact padded_indentLine hm (ih true hl)
    · split at h
      · rename_i hl
        obtain ⟨rfl, rfl⟩ := List.cons.inj h
        obtain rfl := lines_eq_nil.mp hl
        exact .keep .nil
      · rename_i line' more' hl
        obtain ⟨rfl, rfl⟩ := List.cons.inj h
        exact .keep (ih _ hl)

theorem padded_indent {margin : Text} (hm : margin.all p = true) (t : Text) :
    Padded p true t (indent margin t) := by
  have he : indent margin t = (lines t).flatMap (indentLine margin) := rfl
  rw [he]
  cases hl : lines t with
  | nil =>
    obtain rfl := lines_eq_nil.mp hl
    exact .nil
  | cons line more => exact padded_indentLine hm (padded_lines hm true hl)

namespace Padded

theorem exists_of_cons {b : Bool} {c : CodePoint} {t t' : Text} (h : Padded p b (c :: t) t') :
    ∃ s t'', t' = s ++ c :: t'' ∧ s.all p = true ∧ (b = false → s = []) ∧
      Padded p c.isLineBoundary t t'' := by
  generalize ht : c :: t = u at h
  induction h with
  | nil => cases ht
  | @pad d _ _ hd _ ih =>
    obtain ⟨s, t'', rfl, hs, -, h⟩ := ih ht
    exact ⟨d :: s, t'', rfl, by simp [hd, hs], fun hb => (by cases hb), h⟩
  | keep h =>
    cases ht
    exact ⟨[], _, rfl, rfl, fun _ => rfl, h⟩

theorem exists_of_cons_false {c : CodePoint} {t t' : Text} (h : Padded p false (c :: t) t') :
    ∃ t'', t' = c :: t'' ∧ Padded p c.isLineBoundary t t'' := by
  obtain ⟨s, t'', rfl, -, hs, h⟩ := h.exists_of_cons
  exact ⟨t'', by rw [hs rfl, List.nil_append], h⟩

/-- What is put in at the beginning is a margin of its own. -/
theorem exists_margin {b : Bool} {t t' : Text} (h : Padded p b t t') :
    ∃ s u, t' = s ++ u ∧ s.all p = true ∧ (b = false → s = []) ∧ Padded p false t u := by
  induction h with
  | nil => exact ⟨[], [], rfl, rfl, fun _ => rfl, .nil⟩
  | @pad c _ _ hc _ ih =>
    obtain ⟨s, u, rfl, hs, -, hu⟩ := ih
    exact ⟨c :: s, u, rfl, by simp [hc, hs], fun hb => (by cases hb), hu⟩
  | keep h => exact ⟨[], _, rfl, rfl, fun _ => rfl, .keep h⟩

theorem eq_nil_of_false {t' : Text} (h : Padded p false [] t') : t' = [] := by
  cases h
  rfl

/-- What is put in between two parts is counted with the first of them. -/
theorem exists_of_append_any {b : Bool} {x t t' : Text} (h : Padded p b (x ++ t) t') :
    ∃ x' t'', t' = x' ++ t'' ∧ Padded p b x x' ∧ Padded p false t t'' := by
  generalize hu : x ++ t = u at h
  induction h generalizing x with
  | nil =>
    obtain ⟨rfl, rfl⟩ := List.append_eq_nil_iff.mp hu
    exact ⟨[], [], rfl, .nil, .nil⟩
  | @pad c _ _ hc _ ih =>
    obtain ⟨x', t'', rfl, hx, ht⟩ := ih hu
    exact ⟨c :: x', t'', rfl, .pad hc hx, ht⟩
  | @keep b c u u' h ih =>
    cases x with
    | nil =>
      obtain rfl : t = c :: u := hu
      exact ⟨[], c :: u', rfl, .nil, .keep h⟩
    | cons d x =>
      obtain ⟨rfl, he⟩ := List.cons.inj hu
      obtain ⟨x', t'', rfl, hx, ht⟩ := ih he
      exact ⟨d :: x', t'', rfl, .keep hx, ht⟩

/-- Padding does not remove what holds of all characters. -/
theorem all_of_all {q : CodePoint → Bool} (hpq : ∀ c, p c = true → q c = true) {b : Bool}
    {t t' : Text} (h : Padded p b t t') (ht : t.all q = true) : t'.all q = true := by
  induction h with
  | nil => rfl
  | pad hc _ ih => simp [hpq _ hc, ih ht]
  | keep _ ih =>
    rw [List.all_cons, Bool.and_eq_true] at ht ⊢
    exact ⟨ht.1, ih ht.2⟩

theorem exists_of_append {x t t' : Text} (hx : ∀ c ∈ x, c.isLineBoundary = false)
    (h : Padded p false (x ++ t) t') : ∃ t'', t' = x ++ t'' ∧ Padded p false t t'' := by
  induction x generalizing t' with
  | nil => exact ⟨t', rfl, h⟩
  | cons c x ih =>
    cases h with
    | keep h =>
      rw [hx c List.mem_cons_self] at h
      obtain ⟨t'', rfl, ht⟩ := ih (fun d hd => hx d (List.mem_cons_of_mem _ hd)) h
      exact ⟨t'', rfl, ht⟩

theorem trans {b : Bool} {t t' t'' : Text} (h : Padded p b t t') (h' : Padded p b t' t'') :
    Padded p b t t'' := by
  induction h generalizing t'' with
  | nil => exact h'
  | @pad c _ _ hc _ ih =>
    obtain ⟨s, u, rfl, hs, -, hu⟩ := h'.exists_of_cons
    exact .append hs (.pad hc (ih (hu.mono fun _ => rfl)))
  | @keep b c _ _ _ ih =>
    obtain ⟨s, u, rfl, hs, hb, hu⟩ := h'.exists_of_cons
    cases b with
    | false =>
      rw [hb rfl]
      exact .keep (ih hu)
    | true => exact .append hs (.keep (ih hu))

/-- Before the first line boundary nothing is put in. -/
theorem eq_or_split {t t' : Text} (h : Padded p false t t') :
    t = t' ∨ ∃ y c z z', c.isLineBoundary = true ∧ t = y ++ c :: z ∧ t' = y ++ c :: z' := by
  generalize hb : false = b at h
  induction h with
  | nil => exact .inl rfl
  | pad => cases hb
  | @keep _ c t t' h ih =>
    cases hc : c.isLineBoundary with
    | true => exact .inr ⟨[], c, t, t', hc, rfl, rfl⟩
    | false =>
      rcases ih hc.symm with rfl | ⟨y, d, z, z', hd, rfl, rfl⟩
      · exact .inl rfl
      · exact .inr ⟨c :: y, d, z, z', hd, rfl, rfl⟩

end Padded

theorem eq_of_padded_false {b : Bool} {t t' : Text} (h : Padded (fun _ => false) b t t') :
    t = t' := by
  induction h with
  | nil => rfl
  | pad hc => cases hc
  | keep _ ih => rw [ih]

theorem indent_nil (t : Text) : indent [] t = t := (eq_of_padded_false (padded_indent rfl t)).symm

end MemberAccess.Text
