import Mathlib.Data.List.DropRight
import MemberAccess.Text.Blank

/-!
# White space at the ends of texts

Trimming takes white space from both ends of a text and leaves a text alone that has none there.
-/

namespace MemberAccess.Text

variable {t x : Text}

/-- No white space begins or ends the text. -/
structure IsTrimmed (t : Text) : Prop where
  head : ∀ c ∈ t.head?, c.isBlank = false
  getLast : ∀ c ∈ t.getLast?, c.isBlank = false

theorem trimStart_of_head (h : ∀ c ∈ t.head?, c.isBlank = false) : trimStart t = t := by
  cases t with
  | nil => rfl
  | cons c t => exact List.dropWhile_cons_of_neg (by simp [h c rfl])

theorem head?_trimStart (t : Text) : ∀ c ∈ (trimStart t).head?, c.isBlank = false := by
  intro c hc
  have hnot := List.head?_dropWhile_not CodePoint.isBlank t
  rw [trimStart] at hc
  rw [Option.mem_def.mp hc] at hnot
  exact hnot

theorem trimStart_append_of_isBlank (hx : isBlank x = true) (t : Text) :
    trimStart (x ++ t) = trimStart t :=
  List.dropWhile_append_of_pos fun c hc => List.all_eq_true.mp hx c hc

/-- The white space before a text is trimmed as far as it reaches. -/
theorem trimStart_append_of_head (h : ∀ c ∈ x.head?, c.isBlank = false) (t : Text) :
    trimStart (t ++ x) = trimStart t ++ x := by
  induction t with
  | nil => exact trimStart_of_head h
  | cons c t ih =>
    cases hc : c.isBlank with
    | true =>
      rw [List.cons_append, trimStart, trimStart, List.dropWhile_cons_of_pos hc,
        List.dropWhile_cons_of_pos hc]
      exact ih
    | false =>
      have hneg : ¬ c.isBlank = true := by simp [hc]
      rw [List.cons_append, trimStart, trimStart, List.dropWhile_cons_of_neg hneg,
        List.dropWhile_cons_of_neg hneg, List.cons_append]

theorem count_trimStart {c : CodePoint} (hc : c.isBlank = false) (t : Text) :
    (trimStart t).count c = t.count c := by
  induction t with
  | nil => rfl
  | cons d t ih =>
    cases hd : d.isBlank with
    | true =>
      have hne : d ≠ c := by
        rintro rfl
        rw [hd] at hc
        cases hc
      rw [trimStart, List.dropWhile_cons_of_pos hd, List.count_cons_of_ne hne]
      exact ih
    | false => rw [trimStart, List.dropWhile_cons_of_neg (by simp [hd])]

theorem trimEnd_eq_reverse (t : Text) : trimEnd t = (trimStart t.reverse).reverse := rfl

theorem isPrefix_trimEnd (t : Text) : trimEnd t <+: t := List.rdropWhile_prefix CodePoint.isBlank t

theorem trimEnd_of_getLast (h : ∀ c ∈ t.getLast?, c.isBlank = false) : trimEnd t = t := by
  rw [trimEnd_eq_reverse, trimStart_of_head (by simpa using h), List.reverse_reverse]

theorem getLast?_trimEnd (t : Text) : ∀ c ∈ (trimEnd t).getLast?, c.isBlank = false := by
  rw [trimEnd_eq_reverse, List.getLast?_reverse]
  exact head?_trimStart _

theorem trimEnd_append_of_isBlank (hx : isBlank x = true) (t : Text) :
    trimEnd (t ++ x) = trimEnd t := by
  have hx' : isBlank x.reverse = true := by simpa [isBlank] using hx
  rw [trimEnd_eq_reverse, List.reverse_append, trimStart_append_of_isBlank hx', trimEnd_eq_reverse]

theorem isInfix_trim (t : Text) : trim t <:+: t :=
  (isPrefix_trimEnd _).isInfix.trans (List.dropWhile_suffix _).isInfix

theorem trim_of_isTrimmed (h : IsTrimmed t) : trim t = t := by
  rw [trim, trimStart_of_head h.head, trimEnd_of_getLast h.getLast]

theorem isTrimmed_trim (t : Text) : IsTrimmed (trim t) := by
  refine ⟨fun c hc => ?_, getLast?_trimEnd _⟩
  obtain ⟨r, hr⟩ := isPrefix_trimEnd (trimStart t)
  refine head?_trimStart t c ?_
  rw [trim] at hc
  rw [← hr, List.head?_append, Option.mem_def.mp hc]
  rfl

theorem trim_append_of_isBlank (hx : isBlank x = true) (t : Text) : trim (t ++ x) = trim t := by
  induction t with
  | nil =>
    have he : trimStart x = [] := by simpa [trimStart] using List.all_eq_true.mp hx
    rw [List.nil_append, trim, he]
    rfl
  | cons c t ih =>
    cases hc : c.isBlank with
    | true =>
      rw [List.cons_append, trim, trim, trimStart, trimStart, List.dropWhile_cons_of_pos hc,
        List.dropWhile_cons_of_pos hc]
      exact ih
    | false =>
      have hhead : ∀ r, ∀ d ∈ (c :: r).head?, d.isBlank = false := by simp [hc]
      rw [trim, trim, List.cons_append, trimStart_of_head (hhead _), trimStart_of_head (hhead _),
        ← List.cons_append, trimEnd_append_of_isBlank hx]

theorem count_trim {c : CodePoint} (hc : c.isBlank = false) (t : Text) :
    (trim t).count c = t.count c := by
  rw [trim, trimEnd_eq_reverse, List.count_reverse, count_trimStart hc, List.count_reverse,
    count_trimStart hc]

theorem trim_append_left_of_isBlank (hx : isBlank x = true) (t : Text) :
    trim (x ++ t) = trim t := by
  rw [trim, trimStart_append_of_isBlank hx, trim]

/-- Only the beginning of a text is trimmed that ends without white space. -/
theorem trim_append_of_isTrimmed (hx : IsTrimmed x) (hne : x ≠ []) (t : Text) :
    trim (t ++ x) = trimStart t ++ x := by
  rw [trim, trimStart_append_of_head hx.head]
  refine trimEnd_of_getLast fun c hc => hx.getLast c ?_
  obtain ⟨y, d, rfl⟩ := List.eq_nil_or_concat x |>.resolve_left hne
  simpa using hc

end MemberAccess.Text
