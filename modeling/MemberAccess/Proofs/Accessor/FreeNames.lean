import Mathlib.Order.Bounds.Defs
import MemberAccess.Proofs.Accessor.LocalNames

/-!
# The search for free names

A name for a local is found by a search without a bound: as long as the name is that of a parameter,
the next number is tried. The search always ends, with the first name that is free, and so it depends
on nothing but which names are taken.
-/

namespace MemberAccess.Accessor.LocalNames

variable {taken taken' : List Text} {base name x y : Text} {k : Nat}

/-- How the search ends that has come to a name with the number `k`: with a name that is not taken,
it is over, and from one that is, it goes on with the next number. -/
inductive SearchEnds (taken : List Text) (base : Text) : Text → Nat → Text → Prop
  | found {name : Text} {k : Nat} : name ∉ taken → SearchEnds taken base name k name
  | next {name x : Text} {k : Nat} : name ∈ taken →
      SearchEnds taken base (base ++ Text.ofNat (k + 1)) (k + 1) x → SearchEnds taken base name k x

namespace SearchEnds

theorem unique (hx : SearchEnds taken base name k x) (hy : SearchEnds taken base name k y) :
    x = y := by
  induction hx with
  | found hfree =>
    cases hy with
    | found => rfl
    | next htaken => exact absurd htaken hfree
  | next htaken _ ih =>
    cases hy with
    | found hfree => exact absurd htaken hfree
    | next _ hy => exact ih hy

/-- The search passes over the numbers of names that are taken. -/
theorem numbered (n : Nat) (htaken : ∀ j, k ≤ j → j < k + n → numbered base j ∈ taken)
    (hfree : LocalNames.numbered base (k + n) ∉ taken) :
    SearchEnds taken base (LocalNames.numbered base k) k (LocalNames.numbered base (k + n)) := by
  induction n generalizing k with
  | zero => exact .found hfree
  | succ n ih =>
    apply SearchEnds.next
    · exact htaken k (by omega) (by omega)
    · rw [show k + (n + 1) = k + 1 + n by omega] at hfree ⊢
      rw [← numbered_succ]
      apply ih
      · intro j hj hlt
        exact htaken j (by omega) (by omega)
      · exact hfree

theorem free (taken : List Text) (base : Text) :
    SearchEnds taken base base 0 (free taken base) := by
  obtain ⟨k, hk, hfree, htaken⟩ := exists_free_eq taken base
  have hends := numbered (k := 0) k (fun j _ hj => htaken j (by omega)) (by rwa [Nat.zero_add])
  rwa [numbered_zero, Nat.zero_add, ← hk] at hends

theorem iff_eq_free : SearchEnds taken base base 0 x ↔ x = LocalNames.free taken base := by
  constructor
  · intro h
    exact h.unique (free taken base)
  · rintro rfl
    exact free taken base

end SearchEnds

/-- The base if it is not taken, and otherwise the base with the least number from one on with which
it is not taken. -/
def IsLeastFree (taken : List Text) (base name : Text) : Prop :=
  (base ∉ taken → name = base) ∧
  (base ∈ taken → ∃ k, IsLeast {k | 1 ≤ k ∧ base ++ Text.ofNat k ∉ taken} k ∧
    name = base ++ Text.ofNat k)

theorem isLeastFree_free (taken : List Text) (base : Text) :
    IsLeastFree taken base (free taken base) := by
  obtain ⟨k, hk, hfree, htaken⟩ := exists_free_eq taken base
  rw [hk]
  cases k with
  | zero => exact ⟨fun _ => rfl, fun h => absurd h hfree⟩
  | succ k =>
    refine ⟨fun h => absurd (htaken 0 (by omega)) h, fun _ => ⟨k + 1, ⟨⟨by omega, hfree⟩, ?_⟩, rfl⟩⟩
    -- A number below the first that is free is taken.
    rintro j ⟨hj, hfreej⟩
    by_contra hlt
    obtain ⟨i, rfl⟩ : ∃ i, j = i + 1 := ⟨j - 1, by omega⟩
    exact hfreej (htaken (i + 1) (by omega))

/-- A name is known by its base and by which names are taken. -/
theorem IsLeastFree.unique (hmem : ∀ x, x ∈ taken' ↔ x ∈ taken) (hx : IsLeastFree taken base x)
    (hy : IsLeastFree taken' base y) : x = y := by
  by_cases hbase : base ∈ taken
  · obtain ⟨j, hj, rfl⟩ := hx.2 hbase
    obtain ⟨k, hk, rfl⟩ := hy.2 ((hmem base).mpr hbase)
    simp only [hmem] at hk
    rw [hj.unique hk]
  · rw [hx.1 hbase, hy.1 fun h => hbase ((hmem base).mp h)]

/-- The bases of the names, and what is made of each. -/
def byBase (names : LocalNames) : List (Text × Text) :=
  [("klass", names.klass), ("member", names.member), ("e", names.error)]

theorem eq_free_of_mem_byBase {parameters : List Parameter} {p : Text × Text}
    (h : p ∈ (of parameters).byBase) : p.2 = free (parameters.map (·.name)) p.1 := by
  simp only [byBase, List.mem_cons, List.not_mem_nil, or_false] at h
  rcases h with rfl | rfl | rfl <;> rfl

/-- The names of locals are of no parameter and of no other local. Each is what an unbounded search
ends with, which is the first of its candidates that is free, so that the order and the repetition of
the names of parameters do not matter, nor do their types. -/
theorem free_and_least (parameters : List Parameter) :
    let taken := parameters.map (·.name)
    let names := of parameters
    names.all.Nodup ∧ (∀ x ∈ names.all, x ∉ taken) ∧
    (∀ p ∈ names.byBase,
      (∀ x, SearchEnds taken p.1 p.1 0 x ↔ x = p.2) ∧ IsLeastFree taken p.1 p.2) ∧
    ∀ others : List Parameter, (∀ x, x ∈ others.map (·.name) ↔ x ∈ taken) → of others = names := by
  intro taken names
  refine ⟨nodup_all parameters, fun x hx htaken => disjoint_all parameters htaken hx, ?_, ?_⟩
  · intro p hp
    rw [eq_free_of_mem_byBase hp]
    exact ⟨fun x => SearchEnds.iff_eq_free, isLeastFree_free taken p.1⟩
  · intro others hmem
    have hfree (base : Text) : free (others.map (·.name)) base = free taken base :=
      IsLeastFree.unique (fun x => (hmem x).symm) (isLeastFree_free _ base) (isLeastFree_free _ base)
    simp only [names, of, hfree]
    rfl

/-- A number that is taken is passed over only if all before it are. -/
example : of [⟨"int", "klass", "int"⟩, ⟨"int", "klass2", "int"⟩, ⟨"int", "e", "int"⟩,
    ⟨"int", "e1", "int"⟩, ⟨"int", "e", "int"⟩] = ⟨"klass1", "member", "e2"⟩ := by decide

end MemberAccess.Accessor.LocalNames
