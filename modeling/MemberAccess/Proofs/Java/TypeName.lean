import Mathlib.Data.List.Infix
import MemberAccess.Java.TypeName
import MemberAccess.Proofs.Text.Trim

/-!
# What names of types are made of
-/

namespace MemberAccess.Java.TypeName

variable {name shorter ending : Text} {limit : Nat}

theorem primitive?_eq_some_iff {p : Primitive} : primitive? name = some p ↔ name = p.text := by
  constructor
  · intro h
    have := List.find?_some h
    exact (of_decide_eq_true this).symm
  · rintro rfl
    cases p <;> decide

theorem isPrimitive_iff : isPrimitive name = true ↔
    (∃ p : Primitive, name = p.text) ∨ name = Text.ofString "void" := by
  rw [isPrimitive, Bool.or_eq_true, Option.isSome_iff_exists, decide_eq_true_eq]
  simp only [primitive?_eq_some_iff]

theorem dropEnding?_append (x ending : Text) :
    dropEnding? ending (x ++ ending) = some (Text.trimEnd x) := by
  rw [dropEnding?, if_pos (by simp), List.length_append, Nat.add_sub_cancel, List.take_left]

theorem dropEnding?_eq_none_iff : dropEnding? ending name = none ↔ ¬ ending <:+ name := by
  simp [dropEnding?]

theorem exists_of_dropEnding? (h : dropEnding? ending name = some shorter) :
    ∃ x, name = x ++ ending ∧ shorter = Text.trimEnd x := by
  have hs : ending <:+ name := by
    by_contra hn
    rw [dropEnding?_eq_none_iff.mpr hn] at h
    cases h
  obtain ⟨x, rfl⟩ := hs
  rw [dropEnding?_append] at h
  exact ⟨x, rfl, (Option.some.inj h).symm⟩

theorem prefix_of_dropEnding? (h : dropEnding? ending name = some shorter) : shorter <+: name := by
  obtain ⟨x, rfl, rfl⟩ := exists_of_dropEnding? h
  exact (Text.isPrefix_trimEnd x).trans (List.prefix_append x ending)

theorem dropPairs_of_not_suffix (h : ¬ Text.ofString "[]" <:+ name) (limit : Nat) :
    dropPairs limit name = (name, 0) := by
  cases limit with
  | zero => rfl
  | succ limit =>
    rw [dropPairs]
    simp only [dropEnding?_eq_none_iff.mpr h]

theorem dropPairs_append (limit : Nat) (x : Text) :
    dropPairs (limit + 1) (x ++ Text.ofString "[]") =
      ((dropPairs limit (Text.trimEnd x)).1, (dropPairs limit (Text.trimEnd x)).2 + 1) := by
  rw [dropPairs]
  simp only [dropEnding?_append]

theorem isPrefix_dropPairs (limit : Nat) (name : Text) : (dropPairs limit name).1 <+: name := by
  induction limit generalizing name with
  | zero => exact List.prefix_rfl
  | succ limit ih =>
    by_cases h : Text.ofString "[]" <:+ name
    · obtain ⟨x, rfl⟩ := h
      rw [dropPairs_append]
      exact ((ih _).trans (Text.isPrefix_trimEnd x)).trans (List.prefix_append x _)
    · rw [dropPairs_of_not_suffix h]

theorem not_suffix_of_dropPairs (hlimit : name.length ≤ limit) (h : (dropPairs limit name).2 = 0) :
    ¬ Text.ofString "[]" <:+ name := by
  rintro ⟨x, rfl⟩
  cases limit with
  | zero => simp [Text.ofString] at hlimit
  | succ limit =>
    rw [dropPairs_append] at h
    exact Nat.succ_ne_zero _ h

theorem elementAndDimensions_of_not_suffix (hellipsis : ¬ Text.ofString "..." <:+ name)
    (hpair : ¬ Text.ofString "[]" <:+ name) : elementAndDimensions name = (name, 0) := by
  rw [elementAndDimensions]
  simp only [dropEnding?_eq_none_iff.mpr hellipsis, dropPairs_of_not_suffix hpair]

theorem isPrefix_element (name : Text) : (elementAndDimensions name).1 <+: name := by
  rw [elementAndDimensions]
  cases h : dropEnding? "..." name with
  | none => exact isPrefix_dropPairs _ _
  | some shorter => exact (isPrefix_dropPairs _ _).trans (prefix_of_dropEnding? h)

theorem element_eq_of_dimensions (h : (elementAndDimensions name).2 = 0) :
    (elementAndDimensions name).1 = name := by
  rw [elementAndDimensions] at h ⊢
  cases he : dropEnding? "..." name with
  | some shorter =>
    rw [he] at h
    exact absurd h (Nat.succ_ne_zero _)
  | none =>
    rw [he] at h
    show (dropPairs name.length name).1 = name
    rw [dropPairs_of_not_suffix (not_suffix_of_dropPairs (Nat.le_refl _) h)]

theorem dropArguments_subset (inside : Nat) (t : Text) : dropArguments inside t ⊆ t := by
  fun_induction dropArguments inside t with
  | case1 => exact List.Subset.refl _
  | case2 _ _ _ ih => exact List.subset_cons_of_subset _ ih
  | case3 _ _ _ ih => exact List.subset_cons_of_subset _ ih
  | case4 c rest _ ih => exact List.cons_subset_cons c ih

theorem erase_subset (name : Text) : erase name ⊆ name :=
  List.Subset.trans (Text.isInfix_trim _).subset (dropArguments_subset 0 name)

/-- The marks of dimensions and the descriptors of types. -/
def descriptorMarks : Text := "[L;ZBCSIJFD"

/-- The name under which a class is loaded is made of characters of the name of its type and of
marks of dimensions and descriptors. -/
theorem mem_of_mem_loadable {c : CodePoint} (h : c ∈ loadable name) :
    c ∈ name ∨ c ∈ descriptorMarks := by
  have helement : ∀ c ∈ (elementAndDimensions (erase name)).1, c ∈ name := fun c hc =>
    erase_subset name ((isPrefix_element _).subset hc)
  simp only [loadable] at h
  split at h
  · exact .inl (helement c h)
  · rcases List.mem_append.mp h with h | h
    · rw [List.eq_of_mem_replicate h]
      exact .inr (by decide)
    · rw [elementDescriptor] at h
      split at h
      · rename_i p _
        have hd : ∀ p ∈ Primitive.all, descriptor p ⊆ descriptorMarks := by decide
        exact .inr (hd p p.mem_all h)
      · have hopen : Text.ofString "L" ⊆ descriptorMarks := by decide
        have hclose : Text.ofString ";" ⊆ descriptorMarks := by decide
        simp only [List.mem_append] at h
        rcases h with (h | h) | h
        · exact .inr (hopen h)
        · exact .inl (helement c h)
        · exact .inr (hclose h)

end MemberAccess.Java.TypeName
