import Mathlib.Data.List.Nodup
import Mathlib.Data.List.Perm.Subperm
import MemberAccess.Accessor.Parameter
import MemberAccess.Proofs.Java.Wording
import MemberAccess.Proofs.Text.Digits

/-!
# Names of locals

The names of the variables in a generated body are identifiers, and they are the names of no
parameters and of no other variables.
-/

namespace MemberAccess.Accessor

open Java Java.Lexer

namespace LocalNames

variable {taken : List Text} {base : Text}

theorem ofNat_ne_nil (k : Nat) : Text.ofNat k ≠ [] := by simp [Text.ofNat, Nat.toDigits_ne_nil]

theorem numbered_zero (base : Text) : numbered base 0 = base := rfl

theorem numbered_succ (base : Text) (k : Nat) :
    numbered base (k + 1) = base ++ Text.ofNat (k + 1) := rfl

theorem numbered_injective (base : Text) : Function.Injective (numbered base) := by
  intro j k h
  have hlonger : ∀ {n}, base ≠ base ++ Text.ofNat n := fun he =>
    ofNat_ne_nil _ (List.append_cancel_left ((List.append_nil base).trans he)).symm
  simp only [numbered] at h
  split at h <;> split at h
  · omega
  · exact absurd h hlonger
  · exact absurd h.symm hlonger
  · exact Text.ofNat_injective (List.append_cancel_left h)

/-- Of one candidate more than there are taken names, one is free. -/
theorem exists_numbered_notMem (taken : List Text) (base : Text) :
    ∃ k < taken.length + 1, numbered base k ∉ taken := by
  by_contra h
  have hall : (List.range (taken.length + 1)).map (numbered base) ⊆ taken := by
    intro x hx
    obtain ⟨k, hk, rfl⟩ := List.mem_map.mp hx
    by_contra hfree
    exact h ⟨k, List.mem_range.mp hk, hfree⟩
  have hnodup := (List.nodup_range (n := taken.length + 1)).map (numbered_injective base)
  have hle := (hnodup.subperm hall).length_le
  rw [List.length_map, List.length_range] at hle
  omega

/-- The first candidate that is not taken. -/
theorem exists_free_eq (taken : List Text) (base : Text) :
    ∃ k, free taken base = numbered base k ∧ numbered base k ∉ taken ∧
      ∀ j < k, numbered base j ∈ taken := by
  rw [free, List.find?_map]
  cases h : (List.range (taken.length + 1)).find? ((!taken.contains ·) ∘ numbered base) with
  | some k =>
    obtain ⟨hfree, -, hbefore⟩ := List.find?_range_eq_some.mp h
    exact ⟨k, rfl, by simpa using hfree, fun j hj => by simpa using hbefore j hj⟩
  | none =>
    obtain ⟨k, hk, hfree⟩ := exists_numbered_notMem taken base
    have := List.find?_range_eq_none.mp h k hk
    exact absurd (by simpa using this) hfree

theorem free_notMem (taken : List Text) (base : Text) : free taken base ∉ taken := by
  obtain ⟨k, hk, hfree, -⟩ := exists_free_eq taken base
  rwa [hk]

theorem head?_free (taken : List Text) (hbase : base ≠ []) :
    (free taken base).head? = base.head? := by
  obtain ⟨k, hk, -⟩ := exists_free_eq taken base
  obtain ⟨c, rest, rfl⟩ := List.exists_cons_of_ne_nil hbase
  rw [hk, numbered]
  split <;> rfl

theorem isIdentifierPart_of_isAsciiDigit {c : CodePoint} (h : c.isAsciiDigit = true) :
    isIdentifierPart c = true := by
  have hlt : c.toNat < 0x80 := by
    simp only [CodePoint.isAsciiDigit, Bool.and_eq_true, decide_eq_true_eq] at h
    omega
  simp [isIdentifierPart, CodePoint.isWord, hlt, h]

/-- No keyword has a digit in it. -/
theorem wordTerminal_append_ofNat (x : Text) (k : Nat) :
    wordTerminal (x ++ Text.ofNat k) = .identifier := by
  have hkeyword : ∀ k ∈ Keyword.all, ∀ c ∈ k.text, c.isAsciiDigit = false := by decide
  have hnone : Keyword.ofText? (x ++ Text.ofNat k) = none := by
    refine List.find?_eq_none.mpr fun w hw => ?_
    rw [decide_eq_true_eq]
    intro he
    obtain ⟨c, hc⟩ := List.exists_mem_of_ne_nil _ (ofNat_ne_nil k)
    have hdigit := hkeyword w hw c (he ▸ List.mem_append_right x hc)
    rw [Text.isDigit_of_mem_ofNat hc] at hdigit
    cases hdigit
  rw [wordTerminal, hnone]

theorem isIdentifier_numbered (h : IsIdentifier base) (k : Nat) :
    IsIdentifier (numbered base k) := by
  rw [numbered]
  split
  · exact h
  · obtain ⟨⟨hstart, hparts⟩, -⟩ := isIdentifier_iff.mp h
    refine isIdentifier_iff.mpr ⟨⟨?_, ?_⟩, wordTerminal_append_ofNat base k⟩
    · obtain ⟨c, rest, rfl, hc⟩ := Text.beginsWith_iff.mp hstart
      exact hc
    · rw [List.all_append, hparts, Bool.true_and, List.all_eq_true]
      exact fun c hc => isIdentifierPart_of_isAsciiDigit (Text.isDigit_of_mem_ofNat hc)

theorem isIdentifier_free (h : IsIdentifier base) (taken : List Text) :
    IsIdentifier (free taken base) := by
  obtain ⟨k, hk, -⟩ := exists_free_eq taken base
  rw [hk]
  exact isIdentifier_numbered h k

theorem isIdentifier_klass (parameters : List Parameter) : IsIdentifier (of parameters).klass :=
  isIdentifier_free (by decide +kernel) _

theorem isIdentifier_member (parameters : List Parameter) : IsIdentifier (of parameters).member :=
  isIdentifier_free (by decide +kernel) _

theorem isIdentifier_error (parameters : List Parameter) : IsIdentifier (of parameters).error :=
  isIdentifier_free (by decide +kernel) _

variable (parameters : List Parameter)

theorem klass_notMem : (of parameters).klass ∉ parameters.map (·.name) := free_notMem _ _

theorem member_notMem : (of parameters).member ∉ parameters.map (·.name) := free_notMem _ _

theorem error_notMem : (of parameters).error ∉ parameters.map (·.name) := free_notMem _ _

theorem head?_klass : (of parameters).klass.head? = some (CodePoint.ofChar 'k') :=
  head?_free _ (by decide)

theorem head?_member : (of parameters).member.head? = some (CodePoint.ofChar 'm') :=
  head?_free _ (by decide)

theorem head?_error : (of parameters).error.head? = some (CodePoint.ofChar 'e') :=
  head?_free _ (by decide)

theorem ne_of_head? {x y : Text} {c d : CodePoint} (hx : x.head? = some c) (hy : y.head? = some d)
    (h : c ≠ d) : x ≠ y := by
  rintro rfl
  exact h (Option.some.inj (hx.symm.trans hy))

theorem klass_ne_member : (of parameters).klass ≠ (of parameters).member :=
  ne_of_head? (head?_klass parameters) (head?_member parameters) (by decide)

theorem klass_ne_error : (of parameters).klass ≠ (of parameters).error :=
  ne_of_head? (head?_klass parameters) (head?_error parameters) (by decide)

theorem member_ne_error : (of parameters).member ≠ (of parameters).error :=
  ne_of_head? (head?_member parameters) (head?_error parameters) (by decide)

def all (names : LocalNames) : List Text := [names.klass, names.member, names.error]

theorem nodup_all : (of parameters).all.Nodup := by
  simp [all, klass_ne_member, klass_ne_error, member_ne_error]

theorem disjoint_all :
    (parameters.map (·.name)).Disjoint (of parameters).all := by
  intro x hx hall
  rw [all, List.mem_cons, List.mem_cons, List.mem_singleton] at hall
  rcases hall with rfl | rfl | rfl
  · exact klass_notMem parameters hx
  · exact member_notMem parameters hx
  · exact error_notMem parameters hx

end LocalNames

end MemberAccess.Accessor
