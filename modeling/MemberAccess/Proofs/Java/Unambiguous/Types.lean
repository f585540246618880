import MemberAccess.Proofs.Java.Follow
import MemberAccess.Proofs.Java.Shape

/-!
# Types are read in one way

The class of a literal is a type before a dot and the word `class`, and the names of its parts have
dots between them too. Elsewhere the first lexeme tells how a type goes on, except after
`instanceof`, where an operator can follow that looks like the beginning of its arguments.
-/

namespace MemberAccess.Java

namespace Nonterminal

/-- The lexemes do not begin with a dot and a name. -/
def NoName (r : List Lexeme) : Prop :=
  ∀ d x w, r ≠ ⟨.mark .dot, d⟩ :: ⟨.identifier, x⟩ :: w

theorem noName_of_heads {ts : List Terminal} {r : List Lexeme} (h : Heads ts r)
    (hd : .mark .dot ∉ ts) : NoName r := by
  rintro d x w rfl
  exact hd (heads_cons.mp h)

/-- The nonterminals after which the class of a literal is complete but for its dimensions. -/
def classNames : List Nonterminal :=
  [result, type, classType, many (after (.mark .dot) classTypePart)]

/-- What follows the name of the class of a literal does not belong to the name. -/
def Dotless (c : Context) (n : Nonterminal) (r : List Lexeme) : Prop :=
  c = .literal → n ∈ classNames → NoName r

theorem Dotless.of_plain {n : Nonterminal} {r : List Lexeme} : Dotless .plain n r := by
  intro h
  cases h

theorem Dotless.of_not_mem {c : Context} {n : Nonterminal} {r : List Lexeme} (h : n ∉ classNames) :
    Dotless c n r := fun _ hn => absurd hn h

theorem inside_eq_literal {c : Context} {n m : Nonterminal} (h : inside c n m = .literal)
    (hm : m ∈ classNames) : n = atom ∧ m = result ∨
      c = .literal ∧ (n = result ∧ m = type ∨ n = type ∧ m = classType ∨
        m = many (after (.mark .dot) classTypePart) ∧ (n = classType ∨ n = m)) := by
  unfold inside at h
  split at h <;> simp_all [classNames]

theorem each_dotless {c : Context} {n : Nonterminal} {a : Alternative Terminal Value n}
    {s r : List Lexeme} (ha : a ∈ n.alternatives) (h : Dotless c n r) :
    grammar.Each (fun m _ r => Dotless (inside c n m) m r) a.symbols s r := by
  refine .of_afters fun m ys hys _ y hy hc hm => ?_
  have hys := mem_rests ha hys
  rcases inside_eq_literal hc hm with ⟨rfl, rfl⟩ | ⟨rfl, ⟨rfl, rfl⟩ | ⟨rfl, rfl⟩ | ⟨rfl, rfl | rfl⟩⟩
  · obtain rfl : ys = [mark .dot, word .class_] := List.mem_singleton.mp hys
    obtain ⟨d, _, rfl, x, _, rfl, rfl⟩ := hy
    simp [NoName]
  · obtain rfl : ys = [] := List.mem_singleton.mp hys
    obtain rfl := hy
    exact h rfl (by decide)
  · obtain rfl : ys = [.node dimensions] := List.mem_singleton.mp hys
    have hd := firstTable.heads_of_spans hy
    cases y with
    | nil => exact h rfl (by decide)
    | cons l y => exact noName_of_heads hd (by decide)
  · obtain rfl : ys = [] := List.mem_singleton.mp hys
    obtain rfl := hy
    exact h rfl (by decide)
  · obtain rfl : ys = [] := List.mem_singleton.mp hys
    obtain rfl := hy
    exact h rfl (by decide)

theorem apart_names {P : List Lexeme → List Lexeme → Prop} (hP : ∀ s r, P s r → NoName r) :
    (many (after (.mark .dot) classTypePart)).alternatives.Pairwise
      fun a a' => grammar.Apart P a.symbols a'.symbols := by
  simp only [alternatives, List.pairwise_cons, List.mem_singleton, forall_eq, List.not_mem_nil,
    false_implies, implies_true, List.Pairwise.nil, and_true]
  intro u u' r r' hu hu' he _ hr'
  obtain ⟨v, _, rfl, hv, -⟩ := hu
  obtain rfl := hu'
  obtain ⟨d, w, rfl, hw⟩ := is_after_iff.mp hv
  obtain ⟨⟨_, x⟩, w, rfl, hx⟩ := firstTable.exists_cons_of_is hw rfl
  obtain rfl := List.mem_singleton.mp hx
  exact hP _ _ hr' d x _ he.symm

/-- A part of a type that is not tested stands where the stream is read. -/
def TypeStands (c : Context) (n : Nonterminal) (r : List Lexeme) : Prop :=
  (c, n) ∈ typePlaces ∧ Stands c n r ∧ Dotless c n r

def inTypePlaces (c : Context) (n : Nonterminal) : Symbol Terminal Nonterminal → Bool
  | .node m => (inside c n m, m) ∈ typePlaces
  | _ => true

theorem typePlaces_closed :
    ∀ p ∈ typePlaces, ∀ a ∈ p.2.alternatives, a.symbols.all (inTypePlaces p.1 p.2) := by
  decide +kernel

theorem each_typeStands {c : Context} {n : Nonterminal} {a : Alternative Terminal Value n}
    {s r : List Lexeme} (ha : a ∈ n.alternatives) (h : TypeStands c n r) :
    grammar.Each (fun m _ r => TypeStands (inside c n m) m r) a.symbols s r := by
  obtain ⟨hp, hs, hd⟩ := h
  refine .and (.of_afters fun m _ hys _ _ _ => ?_) ((each_stands ha hs).and (each_dotless ha hd))
  exact of_decide_eq_true (List.all_eq_true.mp (typePlaces_closed _ hp a ha) _
    (Grammar.mem_of_mem_afters hys))

theorem apart_typeStands (c : Context) (n : Nonterminal) :
    n.alternatives.Pairwise
      fun a a' => grammar.Apart (fun _ r => TypeStands c n r) a.symbols a'.symbols := by
  by_cases hp : (c, n) ∈ typePlaces
  · by_cases hc : (c, n) ∈ clashes
    · have : ∀ p ∈ clashes, p ∈ typePlaces →
          p = (.literal, many (after (.mark .dot) classTypePart)) := by decide
      cases this _ hc hp
      exact apart_names fun _ _ h => h.2.2 rfl (by decide)
    · exact pairwise_apart hc fun _ _ h => h.2.1
  · exact List.pairwise_of_forall fun _ _ _ _ _ _ _ _ _ hr _ => hp hr.1

/-- A type that is not tested is determined by the stream, if what is left of it neither begins with
a part of a type nor with an operand. -/
theorem settled_type {n : Nonterminal} {w : List Lexeme} {v : n.Value} (h : n.Derives w v)
    (c : Context) : grammar.Settled (fun _ r => TypeStands c n r) n w v :=
  Grammar.settled (P := fun c n _ r => TypeStands c n r) each_typeStands
    apart_typeStands h c

theorem eq_of_types {u u' r r' : List Lexeme} (hu : grammar.Is type u) (hu' : grammar.Is type u')
    (he : u ++ r = u' ++ r') (hr : Heads (typeEnd .literal) r) (hn : NoName r)
    (hr' : Heads (typeEnd .literal) r') (hn' : NoName r') : r = r' := by
  obtain ⟨v, hv⟩ := hu
  obtain ⟨v', hv'⟩ := hu'
  obtain ⟨rfl, -⟩ := settled_type hv .literal u' v' r r' hv' he
    ⟨by decide, ⟨rfl, hr⟩, fun _ _ => hn⟩ ⟨by decide, ⟨rfl, hr'⟩, fun _ _ => hn'⟩
  exact List.append_cancel_left he

theorem eq_of_dimensions {u u' r r' : List Lexeme} (hu : grammar.Is dimensions u)
    (hu' : grammar.Is dimensions u') (he : u ++ r = u' ++ r')
    (hr : Heads (follow .literal dimensions) r) (hr' : Heads (follow .literal dimensions) r') :
    r = r' := by
  obtain ⟨v, hv⟩ := hu
  obtain ⟨v', hv'⟩ := hu'
  obtain ⟨rfl, -⟩ := settled_type hv .literal u' v' r r' hv' he
    ⟨by decide, ⟨rfl, hr⟩, .of_not_mem (by decide)⟩
    ⟨by decide, ⟨rfl, hr'⟩, .of_not_mem (by decide)⟩
  exact List.append_cancel_left he

end Nonterminal

end MemberAccess.Java
