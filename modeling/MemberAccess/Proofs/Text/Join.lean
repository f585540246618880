import MemberAccess.Text.Basic

/-!
# Texts one after the other
-/

namespace MemberAccess.Text

variable {separator x y : Text} {xs : List Text}

@[simp] theorem join_nil (separator : Text) : join separator [] = [] := rfl

@[simp] theorem join_singleton (separator x : Text) : join separator [x] = x := by
  simp [join, List.intercalate]

theorem join_cons_cons (separator x y : Text) (xs : List Text) :
    join separator (x :: y :: xs) = x ++ separator ++ join separator (y :: xs) := by
  simp [join, List.intercalate]

theorem join_cons (separator x : Text) (xs : List Text) :
    join separator (x :: xs) = x ++ xs.flatMap (separator ++ ·) := by
  induction xs generalizing x with
  | nil => simp
  | cons y xs ih => rw [join_cons_cons, ih, List.flatMap_cons, List.append_assoc, List.append_assoc]

theorem all_join {p : CodePoint → Bool} (hs : separator.all p = true)
    (h : ∀ x ∈ xs, x.all p = true) : (join separator xs).all p = true := by
  cases xs with
  | nil => rfl
  | cons x xs =>
    rw [List.forall_mem_cons] at h
    rw [join_cons, List.all_append, h.1, Bool.true_and, List.all_flatMap]
    refine List.all_eq_true.mpr fun y hy => ?_
    rw [List.all_append, hs, h.2 y hy]
    rfl

theorem length_le_join (h : x ∈ xs) (separator : Text) :
    x.length ≤ (join separator xs).length := by
  induction xs with
  | nil => cases h
  | cons y xs ih =>
    cases xs with
    | nil =>
      obtain rfl := List.mem_singleton.mp h
      simp
    | cons z xs =>
      rw [join_cons_cons, List.length_append, List.length_append]
      rcases List.mem_cons.mp h with rfl | h
      · omega
      · have := ih h
        omega

/-- There are no more parts than separators and one. -/
theorem length_le_length_join (hs : separator ≠ []) (xs : List Text) :
    xs.length ≤ (join separator xs).length + 1 := by
  have hpos := List.length_pos_iff.mpr hs
  induction xs with
  | nil => simp
  | cons x xs ih =>
    cases xs with
    | nil => simp
    | cons y xs =>
      rw [join_cons_cons, List.length_append, List.length_append, List.length_cons]
      omega

end MemberAccess.Text
