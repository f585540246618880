import MemberAccess.Proofs.Java.Ebnf.Item

/-!
# Images of derivations

A rule derives lexemes with an image if one of its trees over them stands for it. Images can be
put together part by part, and what holds of the images of a rule is shown by looking at its right
sides alone: `Derives.means` gives a tree its item and the item its meaning in one induction.
-/

namespace MemberAccess.Java.Ebnf

/-- The item of a rule whose right side stands for the items. -/
def Production.item (p : Production) (r : Rule) (xs : List Item) : Option Item :=
  match p.label?, xs with
  | some label, _ => label.action xs
  | none, [x] => if r.isTransparent then some x else Action.ofRule r [x]
  | none, _ => Action.ofRule r xs

theorem Production.item_of_rule {ps : List Part} {r : Rule} {xs : List Item}
    (h : r.isTransparent = false) : Production.item ⟨ps, none⟩ r xs = Action.ofRule r xs := by
  match xs with
  | [] | [_] | _ :: _ :: _ => simp [item, h]

@[simp] theorem Tree.values_nil : Tree.values [] = some [] := by rw [Tree.values]

@[simp] theorem Tree.values_cons (t : Tree) (ts : List Tree) :
    Tree.values (t :: ts) = t.value.bind fun x => (Tree.values ts).bind fun xs => some (x :: xs) := by
  rw [Tree.values]
  rfl

@[simp] theorem Tree.value_leaf (l : Lexeme) : (Tree.leaf l).value = some (.token l) := by
  rw [Tree.value]

@[simp] theorem Tree.value_node (label : Label) (ts : List Tree) :
    (Tree.node label ts).value = (Tree.values ts).bind label.action := by
  rw [Tree.value]
  rfl

theorem Tree.values_append {ts us : List Tree} {xs ys : List Item} (ht : Tree.values ts = some xs)
    (hu : Tree.values us = some ys) : Tree.values (ts ++ us) = some (xs ++ ys) := by
  induction ts generalizing xs with
  | nil =>
    cases ht
    exact hu
  | cons t ts ih =>
    simp only [values_cons, Option.bind_eq_some_iff, Option.some.injEq] at ht
    obtain ⟨x, hx, xs', hxs, rfl⟩ := ht
    simp [hx, ih hxs]

/-- A node stands for what the items of its children make. -/
theorem Production.value_tree (p : Production) (r : Rule) {ts : List Tree} {xs : List Item}
    (h : Tree.values ts = some xs) : (p.tree r ts).value = p.item r xs := by
  obtain ⟨parts, label?⟩ := p
  match label?, ts with
  | some label, _ => simp [tree, item, h]
  | none, [] =>
    cases h
    simp [tree, item, Label.action]
  | none, [t] =>
    simp only [Tree.values_cons, Tree.values_nil, Option.bind_eq_some_iff, Option.some.injEq] at h
    obtain ⟨x, hx, _, rfl, rfl⟩ := h
    simp only [tree, item]
    split
    · exact hx
    · simp [hx, Label.action]
  | none, t :: t' :: ts =>
    have h' := h
    simp only [Tree.values_cons, Option.bind_eq_some_iff, Option.some.injEq] at h'
    obtain ⟨x, hx, _, ⟨x', hx', xs, hxs, rfl⟩, rfl⟩ := h'
    simp [tree, item, h, Label.action, -Tree.values_cons]

/-- The rule derives the lexemes, and the item is what a tree of it stands for. -/
def Rule.Image (r : Rule) (w : List Lexeme) (x : Item) : Prop :=
  ∃ t, Derives r w t ∧ t.value = some x

theorem Reading.exists_trees {ps : List Part} {w : List Lexeme} {xs : List Item}
    (h : Reading .token Rule.Image ps w xs) :
    ∃ ts, Reading .leaf Derives ps w ts ∧ Tree.values ts = some xs := by
  induction h with
  | nil => exact ⟨[], .nil, by simp⟩
  | skip _ ih =>
    obtain ⟨ts, ht, hv⟩ := ih
    exact ⟨ts, .skip ht, hv⟩
  | take _ ih =>
    obtain ⟨ts, ht, hv⟩ := ih
    exact ⟨_, .take ht, by simp [hv]⟩
  | rule hx _ ih =>
    obtain ⟨t, hd, hx⟩ := hx
    obtain ⟨ts, ht, hv⟩ := ih
    exact ⟨_, .rule hd ht, by simp [hx, hv]⟩
  | without _ ih =>
    obtain ⟨ts, ht, hv⟩ := ih
    exact ⟨ts, .without ht, hv⟩
  | stop _ ih =>
    obtain ⟨ts, ht, hv⟩ := ih
    exact ⟨ts, .stop ht, hv⟩
  | with_ _ _ ihu ih =>
    obtain ⟨us, hu, hvu⟩ := ihu
    obtain ⟨ts, ht, hv⟩ := ih
    exact ⟨us ++ ts, .with_ hu ht, Tree.values_append hvu hv⟩
  | more _ _ ihu ih =>
    obtain ⟨us, hu, hvu⟩ := ihu
    obtain ⟨ts, ht, hv⟩ := ih
    exact ⟨us ++ ts, .more hu ht, Tree.values_append hvu hv⟩

theorem Rule.Image.intro {r : Rule} {p : Production} {w : List Lexeme} {xs : List Item} {x : Item}
    (hp : p ∈ r.productions) (h : Reading .token Rule.Image p.parts w xs)
    (hx : p.item r xs = some x) : r.Image w x := by
  obtain ⟨ts, ht, hv⟩ := h.exists_trees
  exact ⟨_, .intro hp ht, by rw [p.value_tree r hv, hx]⟩

theorem Rule.Image.of_rule {r : Rule} {ps : List Part} {w : List Lexeme} {xs : List Item} {x : Item}
    (hp : ⟨ps, none⟩ ∈ r.productions) (ht : r.isTransparent = false)
    (h : Reading .token Rule.Image ps w xs) (hx : Action.ofRule r xs = some x) : r.Image w x :=
  .intro hp h (by rw [Production.item_of_rule ht, hx])

/-- A rule that chooses derives what its choice derives. -/
theorem Rule.Image.choose {r r' : Rule} {w : List Lexeme} {x : Item}
    (hp : ⟨[.rule r'], none⟩ ∈ r.productions) (ht : r.isTransparent = true) (h : r'.Image w x) :
    r.Image w x := by
  have hr : Reading .token Rule.Image [.rule r'] (w ++ []) [x] := .rule h .nil
  rw [List.append_nil] at hr
  exact .intro hp hr (by simp [Production.item, ht])

theorem Reading.exists_items {means : Rule → List Lexeme → Item → Prop} {ps : List Part}
    {w : List Lexeme} {ts : List Tree}
    (h : Reading .leaf (fun r w t => ∃ x, t.value = some x ∧ means r w x) ps w ts) :
    ∃ xs, Tree.values ts = some xs ∧ Reading .token means ps w xs := by
  induction h with
  | nil => exact ⟨[], by simp, .nil⟩
  | skip _ ih =>
    obtain ⟨xs, hv, hr⟩ := ih
    exact ⟨xs, hv, .skip hr⟩
  | take _ ih =>
    obtain ⟨xs, hv, hr⟩ := ih
    exact ⟨_, by simp [hv], .take hr⟩
  | rule hx _ ih =>
    obtain ⟨x, hx, hm⟩ := hx
    obtain ⟨xs, hv, hr⟩ := ih
    exact ⟨x :: xs, by simp [hx, hv], .rule hm hr⟩
  | without _ ih =>
    obtain ⟨xs, hv, hr⟩ := ih
    exact ⟨xs, hv, .without hr⟩
  | stop _ ih =>
    obtain ⟨xs, hv, hr⟩ := ih
    exact ⟨xs, hv, .stop hr⟩
  | with_ _ _ ihu ih =>
    obtain ⟨us, hvu, hu⟩ := ihu
    obtain ⟨xs, hv, hr⟩ := ih
    exact ⟨us ++ xs, Tree.values_append hvu hv, .with_ hu hr⟩
  | more _ _ ihu ih =>
    obtain ⟨us, hvu, hu⟩ := ihu
    obtain ⟨xs, hv, hr⟩ := ih
    exact ⟨us ++ xs, Tree.values_append hvu hv, .more hu hr⟩

/-- If the items of each right side make an item with the meaning of the rule, then all trees of a
rule stand for items with its meaning. -/
theorem Derives.means {means : Rule → List Lexeme → Item → Prop}
    (step : ∀ {r : Rule} {p : Production} {w : List Lexeme} {xs : List Item},
      p ∈ r.productions → Reading .token (fun r w x => r.Image w x ∧ means r w x) p.parts w xs →
      ∃ x, p.item r xs = some x ∧ means r w x)
    {r : Rule} {w : List Lexeme} {t : Tree} (h : Derives r w t) :
    ∃ x, t.value = some x ∧ means r w x := by
  have hboth : ∃ x, t.value = some x ∧ r.Image w x ∧ means r w x := by
    refine h.induct (motive := fun r w t => ∃ x, t.value = some x ∧ r.Image w x ∧ means r w x) ?_
    intro r p w ts hp hr
    obtain ⟨xs, hv, hr⟩ := hr.exists_items
    obtain ⟨x, hx, hm⟩ := step hp hr
    refine ⟨x, by rw [p.value_tree r hv, hx], .intro hp (hr.mono fun _ _ _ h => h.1) hx, hm⟩
  obtain ⟨x, hx, -, hm⟩ := hboth
  exact ⟨x, hx, hm⟩

end MemberAccess.Java.Ebnf
