import MemberAccess.Json.Basic

/-!
# What is within a JSON value

The values within a JSON value are the value itself and, in turn, what stands in the members of the
objects among them. What holds of an object and of all that is within its members holds of all that
is within it.
-/

namespace MemberAccess.Json

/-- The value of a member of an object. -/
def member? (key : String) : Json → Option Json
  | object members => (members.find? (·.1 = key)).map Prod.snd
  | _ => none

/-- The items of an array, or the value alone. -/
def elements : Json → List Json
  | array items => items
  | value => [value]

/-- What stands in a member of an object. -/
def children (key : String) (n : Json) : List Json := ((n.member? key).map elements).getD []

/-- The second value is within the first. -/
inductive Within (root : Json) : Json → Prop where
  | root : Within root root
  | child {n c : Json} {key : String} : Within root n → c ∈ n.children key → Within root c

/-- The property holds of all that is within the value. -/
def Everywhere (P : Json → Prop) (root : Json) : Prop := ∀ n, Within root n → P n

variable {P : Json → Prop} {root n c : Json} {key : String} {members : List (String × Json)}

theorem member?_object :
    (object members).member? key = (members.find? (·.1 = key)).map Prod.snd := rfl

theorem exists_member_of_mem_children (h : c ∈ (object members).children key) :
    ∃ v, (key, v) ∈ members ∧ c ∈ v.elements := by
  rw [children, member?_object] at h
  cases hm : members.find? (·.1 = key) with
  | none =>
    rw [hm] at h
    cases h
  | some m =>
    rw [hm] at h
    have hkey : m.1 = key := by simpa using List.find?_some hm
    exact ⟨m.2, hkey ▸ List.mem_of_find?_eq_some hm, h⟩

theorem Within.eq_or_exists (h : Within root n) :
    n = root ∨ ∃ key, ∃ c ∈ root.children key, Within c n := by
  induction h with
  | root => exact .inl rfl
  | @child n d key _ hd ih =>
    right
    rcases ih with rfl | ⟨key', c, hc, hn⟩
    · exact ⟨key, d, hd, .root⟩
    · exact ⟨key', c, hc, .child hn hd⟩

theorem everywhere_intro (hroot : P root) (h : ∀ key, ∀ c ∈ root.children key, Everywhere P c) :
    Everywhere P root := by
  intro n hn
  rcases hn.eq_or_exists with rfl | ⟨key, c, hc, hn⟩
  · exact hroot
  · exact h key c hc n hn

theorem everywhere_object (hroot : P (object members))
    (h : ∀ m ∈ members, ∀ c ∈ m.2.elements, Everywhere P c) : Everywhere P (object members) :=
  everywhere_intro hroot fun _ c hc => by
    obtain ⟨v, hm, hv⟩ := exists_member_of_mem_children hc
    exact h _ hm c hv

/-- What is no object has nothing within it. -/
theorem everywhere_of_forall_ne (hroot : P root) (h : ∀ members, root ≠ object members) :
    Everywhere P root :=
  everywhere_intro hroot fun key c hc => by
    have hm : root.member? key = none := by
      cases root with
      | object members => exact absurd rfl (h members)
      | _ => rfl
    rw [children, hm] at hc
    cases hc

end MemberAccess.Json
