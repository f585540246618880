import Mathlib.Data.List.Basic
import Mathlib.Logic.Relation
import MemberAccess.Proofs.Java.Ebnf.Soundness

/-!
# Nodes of derivations

A node is a rule with the lexemes that it covers and the item that they stand for. It is made of
tokens and other nodes by a right side of its rule. What stands anywhere within a node is what can
be reached in this way, whichever derivation it belongs to.
-/

namespace MemberAccess.Java.Ebnf

/-- A rule over the lexemes that it covers, and what they stand for. -/
structure Node where
  rule : Rule
  lexemes : List Lexeme
  item : Item

/-- What the parts of a right side leave. -/
inductive Piece where
  | token (l : Lexeme)
  | node (n : Node)

def Piece.item : Piece → Item
  | token l => .token l
  | node n => n.item

/-- The lexemes can be read as the parts, which leave the pieces. -/
abbrev Pieces (ps : List Part) (w : List Lexeme) (qs : List Piece) : Prop :=
  Reading .token (fun r u q => ∃ x, q = .node ⟨r, u, x⟩ ∧ r.Image u x) ps w qs

namespace Node

/-- Some derivation of the lexemes from the rule stands for the item. -/
def IsDerived (n : Node) : Prop := n.rule.Image n.lexemes n.item

/-- A right side of the rule leaves the pieces, and their items make the item. -/
def IsMadeOf (n : Node) (qs : List Piece) : Prop :=
  ∃ p ∈ n.rule.productions, Pieces p.parts n.lexemes qs ∧
    p.item n.rule (qs.map Piece.item) = some n.item

def IsChild (c n : Node) : Prop := ∃ qs, n.IsMadeOf qs ∧ .node c ∈ qs

/-- The node is the other one, or stands somewhere below it. -/
def IsWithin : Node → Node → Prop := Relation.ReflTransGen IsChild

end Node

section
variable {X Y : Type} {leaf : Lexeme → X} {leaf' : Lexeme → Y}
  {covers : Rule → List Lexeme → X → Prop} {covers' : Rule → List Lexeme → Y → Prop}
  {ps : List Part} {w : List Lexeme} {xs : List X}

theorem Reading.map (f : X → Y) (hl : ∀ l, f (leaf l) = leaf' l)
    (hc : ∀ r u x, covers r u x → covers' r u (f x)) (h : Reading leaf covers ps w xs) :
    Reading leaf' covers' ps w (xs.map f) := by
  induction h with
  | nil => exact .nil
  | skip _ ih => exact .skip ih
  | take _ ih => exact List.map_cons ▸ hl _ ▸ .take ih
  | rule hu _ ih => exact .rule (hc _ _ _ hu) ih
  | without _ ih => exact .without ih
  | with_ _ _ ih ih' => exact List.map_append ▸ .with_ ih ih'
  | stop _ ih => exact .stop ih
  | more _ _ ih ih' => exact List.map_append ▸ .more ih ih'

/-- Where each thing left is the image of another, these can be left instead. -/
theorem Reading.exists_map (f : Y → X) (hl : ∀ l, f (leaf' l) = leaf l)
    (h : Reading leaf (fun r u x => ∃ y, f y = x ∧ covers' r u y) ps w xs) :
    ∃ ys, Reading leaf' covers' ps w ys ∧ ys.map f = xs := by
  induction h with
  | nil => exact ⟨[], .nil, rfl⟩
  | skip _ ih =>
    obtain ⟨ys, hy, rfl⟩ := ih
    exact ⟨ys, .skip hy, rfl⟩
  | take _ ih =>
    obtain ⟨ys, hy, rfl⟩ := ih
    exact ⟨_, .take hy, List.map_cons.trans (by rw [hl])⟩
  | rule hx _ ih =>
    obtain ⟨y, rfl, hx⟩ := hx
    obtain ⟨ys, hy, rfl⟩ := ih
    exact ⟨_, .rule hx hy, rfl⟩
  | without _ ih =>
    obtain ⟨ys, hy, rfl⟩ := ih
    exact ⟨ys, .without hy, rfl⟩
  | with_ _ _ ih ih' =>
    obtain ⟨us, hu, rfl⟩ := ih
    obtain ⟨ys, hy, rfl⟩ := ih'
    exact ⟨us ++ ys, .with_ hu hy, List.map_append⟩
  | stop _ ih =>
    obtain ⟨ys, hy, rfl⟩ := ih
    exact ⟨ys, .stop hy, rfl⟩
  | more _ _ ih ih' =>
    obtain ⟨us, hu, rfl⟩ := ih
    obtain ⟨ys, hy, rfl⟩ := ih'
    exact ⟨us ++ ys, .more hu hy, List.map_append⟩

theorem Reading.of_append {qs : List Part} (h : Reading leaf covers (ps ++ qs) w xs) :
    ∃ u us v vs, w = u ++ v ∧ xs = us ++ vs ∧ Reading leaf covers ps u us ∧
      Reading leaf covers qs v vs := by
  induction ps generalizing w xs with
  | nil => exact ⟨[], [], w, xs, rfl, rfl, .nil, h⟩
  | cons p ps ih =>
    cases p with
    | skip t =>
      obtain ⟨x, _, rfl, h₁⟩ := Reading.skip_iff.mp h
      obtain ⟨u, us, v, vs, rfl, rfl, hu, hv⟩ := ih h₁
      exact ⟨_, us, v, vs, rfl, rfl, .skip hu, hv⟩
    | take t =>
      obtain ⟨x, _, _, rfl, rfl, h₁⟩ := Reading.take_iff.mp h
      obtain ⟨u, us, v, vs, rfl, rfl, hu, hv⟩ := ih h₁
      exact ⟨_, _, v, vs, rfl, rfl, .take hu, hv⟩
    | rule r =>
      obtain ⟨t, x, _, _, rfl, rfl, ht, h⟩ := Reading.rule_iff.mp h
      obtain ⟨u, us, v, vs, rfl, rfl, hu, hv⟩ := ih h
      exact ⟨t ++ u, _, v, vs, (List.append_assoc ..).symm, rfl, .rule ht hu, hv⟩
    | opt ps =>
      rcases Reading.opt_iff.mp h with h | ⟨t, ts, _, _, rfl, rfl, ht, h⟩
      · obtain ⟨u, us, v, vs, rfl, rfl, hu, hv⟩ := ih h
        exact ⟨u, us, v, vs, rfl, rfl, .without hu, hv⟩
      · obtain ⟨u, us, v, vs, rfl, rfl, hu, hv⟩ := ih h
        exact ⟨t ++ u, ts ++ us, v, vs, (List.append_assoc ..).symm, (List.append_assoc ..).symm,
          .with_ ht hu, hv⟩
    | many ps =>
      obtain ⟨t, ts, _, _, rfl, rfl, ht, h⟩ := Reading.many_iff.mp h
      obtain ⟨u, us, v, vs, rfl, rfl, hu, hv⟩ := ih h
      exact ⟨t ++ u, ts ++ us, v, vs, (List.append_assoc ..).symm, (List.append_assoc ..).symm,
        Reading.many_iff.mpr ⟨t, ts, u, us, rfl, rfl, ht, hu⟩, hv⟩

mutual

def Part.rules : Part → List Rule
  | .skip _ | .take _ => []
  | .rule r => [r]
  | .opt ps | .many ps => rulesOf ps

def rulesOf : List Part → List Rule
  | [] => []
  | p :: ps => p.rules ++ rulesOf ps

end

/-- What is left by parts is a token or comes from one of their rules. -/
theorem Reading.of_mem (h : Reading leaf covers ps w xs) {x : X} (hx : x ∈ xs) :
    (∃ l, x = leaf l) ∨ ∃ r ∈ rulesOf ps, ∃ u, covers r u x := by
  have htail : ∀ {p : Part} {ps : List Part}, (∃ l, x = leaf l) ∨ (∃ r ∈ rulesOf ps, ∃ u, covers r u x) →
      (∃ l, x = leaf l) ∨ ∃ r ∈ rulesOf (p :: ps), ∃ u, covers r u x := by
    rintro p ps (h | ⟨r, hr, h⟩)
    · exact .inl h
    · exact .inr ⟨r, List.mem_append_right _ hr, h⟩
  have hhead : ∀ {p : Part} {qs ps : List Part}, p.rules = rulesOf qs →
      (∃ l, x = leaf l) ∨ (∃ r ∈ rulesOf qs, ∃ u, covers r u x) →
      (∃ l, x = leaf l) ∨ ∃ r ∈ rulesOf (p :: ps), ∃ u, covers r u x := by
    rintro p qs ps hp (h | ⟨r, hr, h⟩)
    · exact .inl h
    · exact .inr ⟨r, List.mem_append_left _ (hp ▸ hr), h⟩
  induction h with
  | nil => cases hx
  | skip _ ih => exact htail (ih hx)
  | take _ ih =>
    rcases List.mem_cons.mp hx with rfl | hx
    · exact .inl ⟨_, rfl⟩
    · exact htail (ih hx)
  | rule hu _ ih =>
    rcases List.mem_cons.mp hx with rfl | hx
    · exact .inr ⟨_, by simp [rulesOf, Part.rules], _, hu⟩
    · exact htail (ih hx)
  | without _ ih | stop _ ih => exact htail (ih hx)
  | with_ _ _ ih ih' =>
    rcases List.mem_append.mp hx with hx | hx
    · exact hhead (by rw [Part.rules]) (ih hx)
    · exact htail (ih' hx)
  | more _ _ ih ih' =>
    rcases List.mem_append.mp hx with hx | hx
    · exact hhead (by rw [Part.rules]) (ih hx)
    · exact ih' hx

end

namespace Pieces
variable {ps : List Part} {w : List Lexeme} {qs : List Piece}

theorem items (h : Pieces ps w qs) : Reading .token Rule.Image ps w (qs.map Piece.item) := by
  refine h.map Piece.item (fun _ => rfl) ?_
  rintro r u _ ⟨x, rfl, hx⟩
  exact hx

theorem understood (h : Pieces ps w qs) : Understood ps w (qs.map Piece.item) :=
  h.items.mono fun _ _ _ hx => ⟨hx, hx.means⟩

theorem of_mem {n : Node} (h : Pieces ps w qs) (hn : .node n ∈ qs) :
    n.rule ∈ rulesOf ps ∧ n.IsDerived := by
  rcases Reading.of_mem h hn with ⟨l, hl⟩ | ⟨r, hr, u, x, he, hx⟩
  · cases hl
  · cases he
    exact ⟨hr, hx⟩

/-- The last part is a rule with a node of its own. -/
theorem last {r : Rule} (h : Pieces ps w qs) (hr : ps.getLast? = some (.rule r)) :
    ∃ u us v x, w = u ++ v ∧ qs = us ++ [.node ⟨r, v, x⟩] ∧ Pieces ps.dropLast u us ∧
      r.Image v x := by
  rw [Pieces, ← List.dropLast_append_getLast? _ hr] at h
  obtain ⟨u, us, v, vs, rfl, rfl, hu, hv⟩ := Reading.of_append h
  obtain ⟨v, _, _, _, rfl, rfl, ⟨x, rfl, hx⟩, hn⟩ := Reading.rule_iff.mp hv
  obtain ⟨rfl, rfl⟩ := Reading.nil_iff.mp hn
  exact ⟨u, us, v, x, by rw [List.append_nil], rfl, hu, hx⟩

end Pieces

theorem Reading.exists_pieces {ps : List Part} {w : List Lexeme} {xs : List Item}
    (h : Reading .token Rule.Image ps w xs) : ∃ qs, Pieces ps w qs ∧ qs.map Piece.item = xs :=
  Reading.exists_map Piece.item (fun _ => rfl) <|
    h.mono fun r u x hx => ⟨.node ⟨r, u, x⟩, rfl, x, rfl, hx⟩

namespace Node
variable {c n : Node} {qs : List Piece}

theorem IsMadeOf.isDerived (h : n.IsMadeOf qs) : n.IsDerived := by
  obtain ⟨p, hp, hq, hx⟩ := h
  exact .intro hp hq.items hx

theorem IsDerived.exists_isMadeOf (h : n.IsDerived) : ∃ qs, n.IsMadeOf qs := by
  obtain ⟨t, ht, hx⟩ := h
  cases ht with
  | @intro _ p _ ts hp hr =>
    have hr : Reading Tree.leaf (fun r w t => ∃ x, t.value = some x ∧ r.Image w x) p.parts
        n.lexemes ts := hr.mono fun r w t ht => by
      obtain ⟨x, hx, -⟩ := ht.exists_item
      exact ⟨x, hx, t, ht, hx⟩
    obtain ⟨xs, hv, hr⟩ := hr.exists_items
    obtain ⟨qs, hq, rfl⟩ := hr.exists_pieces
    exact ⟨qs, p, hp, hq, by rw [← p.value_tree n.rule hv, hx]⟩

theorem IsChild.isDerived (h : c.IsChild n) : c.IsDerived := by
  obtain ⟨qs, ⟨p, hp, hq, hx⟩, hc⟩ := h
  exact (hq.of_mem hc).2

theorem IsWithin.isDerived (h : c.IsWithin n) (hn : n.IsDerived) : c.IsDerived := by
  rcases Relation.ReflTransGen.cases_head h with rfl | ⟨_, hc, -⟩
  · exact hn
  · exact hc.isDerived

/-- What passes from a node to its children holds everywhere within. -/
theorem IsWithin.induct {P : Node → Prop} (step : ∀ {c n : Node}, c.IsChild n → P n → P c)
    (h : c.IsWithin n) (hn : P n) : P c := by
  induction h using Relation.ReflTransGen.head_induction_on with
  | refl => exact hn
  | head hc _ ih => exact step hc ih

end Node

end MemberAccess.Java.Ebnf
