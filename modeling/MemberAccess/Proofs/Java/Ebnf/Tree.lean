import MemberAccess.Proofs.Java.Ebnf.Rule

/-!
# Trees of the written grammar

What a rule derives is a tree over the lexemes that it covers. `Reading` reads lexemes as parts of
a right side when it is known what the rules cover; `Derives` is the least such notion, and
`Derives.induct` its principle of induction.
-/

namespace MemberAccess.Java.Ebnf

inductive Tree where
  | leaf (l : Lexeme)
  | node (label : Label) (children : List Tree)

def Production.tree (p : Production) (r : Rule) (children : List Tree) : Tree :=
  match p.label?, children with
  | some label, _ => .node label children
  | none, [child] => if r.isTransparent then child else .node (.rule r) [child]
  | none, _ => .node (.rule r) children

section
variable {X : Type}

/-- Reads parts where `covers r w x` says that the rule covers `w` and leaves `x`. -/
inductive Reading (leaf : Lexeme → X) (covers : Rule → List Lexeme → X → Prop) :
    List Part → List Lexeme → List X → Prop where
  | nil : Reading leaf covers [] [] []
  | skip {t : Terminal} {x : Text} {ps : List Part} {w : List Lexeme} {xs : List X} :
    Reading leaf covers ps w xs → Reading leaf covers (.skip t :: ps) (⟨t, x⟩ :: w) xs
  | take {t : Terminal} {x : Text} {ps : List Part} {w : List Lexeme} {xs : List X} :
    Reading leaf covers ps w xs →
    Reading leaf covers (.take t :: ps) (⟨t, x⟩ :: w) (leaf ⟨t, x⟩ :: xs)
  | rule {r : Rule} {ps : List Part} {u w : List Lexeme} {x : X} {xs : List X} :
    covers r u x → Reading leaf covers ps w xs →
    Reading leaf covers (.rule r :: ps) (u ++ w) (x :: xs)
  | without {qs ps : List Part} {w : List Lexeme} {xs : List X} :
    Reading leaf covers ps w xs → Reading leaf covers (.opt qs :: ps) w xs
  | with_ {qs ps : List Part} {u w : List Lexeme} {us xs : List X} :
    Reading leaf covers qs u us → Reading leaf covers ps w xs →
    Reading leaf covers (.opt qs :: ps) (u ++ w) (us ++ xs)
  | stop {qs ps : List Part} {w : List Lexeme} {xs : List X} :
    Reading leaf covers ps w xs → Reading leaf covers (.many qs :: ps) w xs
  | more {qs ps : List Part} {u w : List Lexeme} {us xs : List X} :
    Reading leaf covers qs u us → Reading leaf covers (.many qs :: ps) w xs →
    Reading leaf covers (.many qs :: ps) (u ++ w) (us ++ xs)

end

/-- The lexemes derive from the rule, with the tree. -/
inductive Derives : Rule → List Lexeme → Tree → Prop where
  | intro {r : Rule} {p : Production} {w : List Lexeme} {ts : List Tree} :
    p ∈ r.productions → Reading Tree.leaf Derives p.parts w ts → Derives r w (p.tree r ts)

/-- What passes from the parts of each right side to the rule holds of all that is derived. -/
theorem Derives.induct {motive : Rule → List Lexeme → Tree → Prop}
    (step : ∀ {r : Rule} {p : Production} {w : List Lexeme} {ts : List Tree},
      p ∈ r.productions → Reading Tree.leaf motive p.parts w ts → motive r w (p.tree r ts))
    {r : Rule} {w : List Lexeme} {t : Tree} (h : Derives r w t) : motive r w t := by
  refine Derives.rec (motive_1 := fun r w t _ => motive r w t)
    (motive_2 := fun ps w ts _ => Reading Tree.leaf motive ps w ts)
    ?_ ?_ ?_ ?_ ?_ ?_ ?_ ?_ ?_ h
  · intro r p w ts hp _ ih
    exact step hp ih
  · exact .nil
  · intro _ _ _ _ _ _ ih
    exact .skip ih
  · intro _ _ _ _ _ _ ih
    exact .take ih
  · intro _ _ _ _ _ _ _ _ ih ih'
    exact .rule ih ih'
  · intro _ _ _ _ _ ih
    exact .without ih
  · intro _ _ _ _ _ _ _ _ ih ih'
    exact .with_ ih ih'
  · intro _ _ _ _ _ ih
    exact .stop ih
  · intro _ _ _ _ _ _ _ _ ih ih'
    exact .more ih ih'

namespace Reading
variable {X : Type} {leaf : Lexeme → X} {covers covers' : Rule → List Lexeme → X → Prop}
  {ps qs : List Part} {w : List Lexeme} {xs : List X}

theorem nil_iff : Reading leaf covers [] w xs ↔ w = [] ∧ xs = [] := by
  constructor
  · intro h
    cases h
    exact ⟨rfl, rfl⟩
  · rintro ⟨rfl, rfl⟩
    exact .nil

theorem skip_iff {t : Terminal} :
    Reading leaf covers (.skip t :: ps) w xs ↔
      ∃ x w', w = ⟨t, x⟩ :: w' ∧ Reading leaf covers ps w' xs := by
  constructor
  · intro h
    cases h with
    | skip h => exact ⟨_, _, rfl, h⟩
  · rintro ⟨x, w', rfl, h⟩
    exact .skip h

theorem take_iff {t : Terminal} :
    Reading leaf covers (.take t :: ps) w xs ↔
      ∃ x w' xs', w = ⟨t, x⟩ :: w' ∧ xs = leaf ⟨t, x⟩ :: xs' ∧
        Reading leaf covers ps w' xs' := by
  constructor
  · intro h
    cases h with
    | take h => exact ⟨_, _, _, rfl, rfl, h⟩
  · rintro ⟨x, w', xs', rfl, rfl, h⟩
    exact .take h

theorem rule_iff {r : Rule} :
    Reading leaf covers (.rule r :: ps) w xs ↔
      ∃ u x w' xs', w = u ++ w' ∧ xs = x :: xs' ∧ covers r u x ∧
        Reading leaf covers ps w' xs' := by
  constructor
  · intro h
    cases h with
    | rule hu h => exact ⟨_, _, _, _, rfl, rfl, hu, h⟩
  · rintro ⟨u, x, w', xs', rfl, rfl, hu, h⟩
    exact .rule hu h

theorem opt_iff :
    Reading leaf covers (.opt qs :: ps) w xs ↔
      Reading leaf covers ps w xs ∨
      ∃ u us w' xs', w = u ++ w' ∧ xs = us ++ xs' ∧ Reading leaf covers qs u us ∧
        Reading leaf covers ps w' xs' := by
  constructor
  · intro h
    cases h with
    | without h => exact .inl h
    | with_ hu h => exact .inr ⟨_, _, _, _, rfl, rfl, hu, h⟩
  · rintro (h | ⟨u, us, w', xs', rfl, rfl, hu, h⟩)
    · exact .without h
    · exact .with_ hu h

end Reading

/-- The lexemes can be read as the parts any number of times. -/
inductive Repeats {X : Type} (leaf : Lexeme → X) (covers : Rule → List Lexeme → X → Prop)
    (qs : List Part) : List Lexeme → List X → Prop where
  | nil : Repeats leaf covers qs [] []
  | cons {u w : List Lexeme} {us xs : List X} :
    Reading leaf covers qs u us → Repeats leaf covers qs w xs →
    Repeats leaf covers qs (u ++ w) (us ++ xs)

namespace Reading
variable {X Y : Type} {leaf : Lexeme → X} {covers covers' : Rule → List Lexeme → X → Prop}
  {ps qs : List Part} {w : List Lexeme} {xs : List X}

theorem many_iff :
    Reading leaf covers (.many qs :: ps) w xs ↔
      ∃ u us w' xs', w = u ++ w' ∧ xs = us ++ xs' ∧ Repeats leaf covers qs u us ∧
        Reading leaf covers ps w' xs' := by
  constructor
  · intro h
    generalize hs : Part.many qs :: ps = ss at h
    induction h with
    | stop h =>
      cases hs
      exact ⟨[], [], _, _, rfl, rfl, .nil, h⟩
    | more hu _ _ ih =>
      cases hs
      obtain ⟨v, vs, w', xs', rfl, rfl, hv, h⟩ := ih rfl
      exact ⟨_, _, w', xs', (List.append_assoc ..).symm, (List.append_assoc ..).symm,
        .cons hu hv, h⟩
    | _ => cases hs
  · rintro ⟨u, us, w', xs', rfl, rfl, hu, h⟩
    induction hu with
    | nil => exact .stop h
    | cons hv _ ih =>
      rw [List.append_assoc, List.append_assoc]
      exact .more hv ih

theorem mono (hc : ∀ r u x, covers r u x → covers' r u x) (h : Reading leaf covers ps w xs) :
    Reading leaf covers' ps w xs := by
  induction h with
  | nil => exact .nil
  | skip _ ih => exact .skip ih
  | take _ ih => exact .take ih
  | rule hu _ ih => exact .rule (hc _ _ _ hu) ih
  | without _ ih => exact .without ih
  | with_ _ _ ih ih' => exact .with_ ih ih'
  | stop _ ih => exact .stop ih
  | more _ _ ih ih' => exact .more ih ih'

end Reading

end MemberAccess.Java.Ebnf
