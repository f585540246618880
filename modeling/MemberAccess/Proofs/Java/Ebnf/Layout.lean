import MemberAccess.Proofs.Java.Ebnf.Node
import MemberAccess.Proofs.Java.Links

/-!
# Where the statements of blocks are

The braces in the lexemes of a method tell where its blocks are, since nothing else has braces, and
the lexemes in a block tell where its statements end. So all derivations agree on what each
statement of a block covers, however deep the block is.
-/

namespace MemberAccess.Java.Ebnf

/-- The lexemes of a block with the statements in it, or of a statement of a block with the blocks
in it, in the order in which they stand. -/
inductive Site where
  | block (lexemes : List Lexeme) (statements : List Site)
  | statement (lexemes : List Lexeme) (blocks : List Site)

/-- The sites of a node whose children have the sites. -/
def Rule.sites (r : Rule) (w : List Lexeme) (fs : List Site) : List Site :=
  match r with
  | .block => [.block w fs]
  | .blockStatement => [.statement w fs]
  | _ => fs

/-- The lexemes derive from the rule, with the tree, in which the blocks and their statements are at
the sites. -/
inductive LaidOut : Rule → List Lexeme → Tree × List Site → Prop where
  | intro {r : Rule} {p : Production} {w : List Lexeme} {xs : List (Tree × List Site)} :
    p ∈ r.productions → Reading (fun l => (.leaf l, [])) LaidOut p.parts w xs →
    LaidOut r w (p.tree r (xs.map Prod.fst), r.sites w (xs.flatMap Prod.snd))

/-- What passes from the parts of each right side to the rule holds of all that is laid out. -/
theorem LaidOut.induct {motive : Rule → List Lexeme → Tree × List Site → Prop}
    (step : ∀ {r : Rule} {p : Production} {w : List Lexeme} {xs : List (Tree × List Site)},
      p ∈ r.productions → Reading (fun l => (.leaf l, [])) motive p.parts w xs →
      motive r w (p.tree r (xs.map Prod.fst), r.sites w (xs.flatMap Prod.snd)))
    {r : Rule} {w : List Lexeme} {x : Tree × List Site} (h : LaidOut r w x) : motive r w x := by
  refine LaidOut.rec (motive_1 := fun r w x _ => motive r w x)
    (motive_2 := fun ps w xs _ => Reading (fun l => (.leaf l, [])) motive ps w xs)
    ?_ ?_ ?_ ?_ ?_ ?_ ?_ ?_ ?_ h
  · intro r p w xs hp _ ih
    exact step hp ih
  · exact .nil
  · intro _ _ _ _ _ _ ih
    exact .skip ih
  · intro _ _ _ _ _ _ ih
    exact .take ih
  · intro _ _ _ _ _ _ _ _ ih ih'
    exact .rule ih ih'
  · intro _ _ _ _ _ ih
    exact .without ih
  · intro _ _ _ _ _ _ _ _ ih ih'
    exact .with_ ih ih'
  · intro _ _ _ _ _ ih
    exact .stop ih
  · intro _ _ _ _ _ _ _ _ ih ih'
    exact .more ih ih'

theorem LaidOut.derives {r : Rule} {w : List Lexeme} {x : Tree × List Site} (h : LaidOut r w x) :
    Derives r w x.1 :=
  h.induct (motive := fun r w x => Derives r w x.1) fun hp hr =>
    .intro hp (hr.map Prod.fst (fun _ => rfl) fun _ _ _ h => h)

mutual

/-- The sites of what is in braces. -/
inductive Braces : List Lexeme → List Site → Prop where
  | nil : Braces [] []
  | lexeme {l : Lexeme} {w : List Lexeme} {fs : List Site} :
    l.terminal ∉ [Terminal.mark .leftBrace, .mark .rightBrace] → Braces w fs → Braces (l :: w) fs
  | block {x y : Text} {u w : List Lexeme} {gs fs : List Site} : Statements u gs → Braces w fs →
    Braces (⟨.mark .leftBrace, x⟩ :: (u ++ ⟨.mark .rightBrace, y⟩ :: w))
      (.block (⟨.mark .leftBrace, x⟩ :: (u ++ [⟨.mark .rightBrace, y⟩])) gs :: fs)

/-- The sites of the statements of one block. -/
inductive Statements : List Lexeme → List Site → Prop where
  | nil : Statements [] []
  | cons {u w : List Lexeme} {gs fs : List Site} : grammar.Is .blockStatement u → Braces u gs →
    Statements w fs → Statements (u ++ w) (.statement u gs :: fs)

end

theorem Braces.append {u w : List Lexeme} {gs fs : List Site} (h : Braces u gs) (h' : Braces w fs) :
    Braces (u ++ w) (gs ++ fs) := by
  refine h.rec (motive_1 := fun u gs _ => Braces (u ++ w) (gs ++ fs))
    (motive_2 := fun _ _ _ => True) h' ?_ ?_ trivial ?_
  · intro l u gs hl _ ih
    exact .lexeme hl ih
  · intro x y u v gs hs hu _ _ ih
    rw [List.cons_append, List.append_assoc]
    exact .block hu ih
  · intros
    trivial

theorem Statements.is_many {w : List Lexeme} {fs : List Site} :
    Statements w fs → grammar.Is (.many .blockStatement) w
  | .nil => Nonterminal.is_many_iff.mpr (.inr rfl)
  | .cons hu _ hw => Nonterminal.is_many_iff.mpr (.inl ⟨_, _, rfl, hu, hw.is_many⟩)

/-- A brace that opens a block closes it at one place. -/
theorem eq_of_braces {u u' w w' : List Lexeme} {gs gs' : List Site} {y y' : Text}
    (h : Statements u gs) (h' : Statements u' gs')
    (he : u ++ ⟨.mark .rightBrace, y⟩ :: w = u' ++ ⟨.mark .rightBrace, y'⟩ :: w') :
    u = u' ∧ y = y' ∧ w = w' := by
  have hends : ∀ {y w}, Nonterminal.Ends .plain (.many .blockStatement)
      (⟨.mark .rightBrace, y⟩ :: w) := fun {y w} =>
    .of_heads (by decide) rfl (heads_cons.mpr (show Terminal.mark .rightBrace ∈ _ by decide))
  obtain ⟨hu, hw⟩ := Nonterminal.eq_of_ends h.is_many h'.is_many he hends hends
  obtain ⟨hy, hw⟩ := List.cons.inj hw
  exact ⟨hu, (Lexeme.mk.inj hy).2, hw⟩

/-- The lexemes determine the sites. -/
theorem Braces.eq {w : List Lexeme} {fs fs' : List Site} (h : Braces w fs) (h' : Braces w fs') :
    fs = fs' := by
  refine h.rec (motive_1 := fun w fs _ => ∀ fs', Braces w fs' → fs = fs')
    (motive_2 := fun w fs _ => ∀ fs', Statements w fs' → fs = fs') ?_ ?_ ?_ ?_ ?_ fs' h'
  · intro fs' h'
    cases h'
    rfl
  · intro l w fs hl _ ih fs' h'
    cases h' with
    | lexeme _ hw => exact ih _ hw
    | block => simp at hl
  · intro x y u w gs fs hu _ ihu ihw fs' h'
    generalize hv : (_ :: _ : List Lexeme) = v at h'
    cases h' with
    | nil => cases hv
    | lexeme hl =>
      obtain ⟨rfl, -⟩ := List.cons.inj hv
      simp at hl
    | block hu' hw' =>
      obtain ⟨hx, he⟩ := List.cons.inj hv
      obtain ⟨rfl, rfl, rfl⟩ := eq_of_braces hu hu' he
      rw [ihu _ hu', ihw _ hw', hx]
  · intro fs' h'
    generalize hv : ([] : List Lexeme) = v at h'
    cases h' with
    | nil => rfl
    | cons hu =>
      obtain ⟨l, u, rfl, -⟩ := firstTable.exists_cons_of_is hu rfl
      cases hv
  · intro u w gs fs hu _ hw ihu ihw fs' h'
    generalize hv : u ++ w = v at h'
    cases h' with
    | nil =>
      obtain ⟨l, u, rfl, -⟩ := firstTable.exists_cons_of_is hu rfl
      cases hv
    | cons hu' hb hw' =>
      obtain rfl := Nonterminal.eq_of_first hu hw.is_many hu' hw'.is_many hv
        (.of_heads (by decide) rfl (heads_nil _))
      obtain rfl := List.append_cancel_left hv
      rw [ihu _ hb, ihw _ hw']

mutual

/-- Whether a part names neither braces nor the statements of a block. -/
def Part.isLevel : Part → Bool
  | .skip t | .take t => t ∉ [Terminal.mark .leftBrace, .mark .rightBrace]
  | .rule r => r ≠ .blockStatement
  | .opt ps | .many ps => areLevel ps

def areLevel : List Part → Bool
  | [] => true
  | p :: ps => p.isLevel && areLevel ps

end

/-- The sites are those of the braces in the lexemes, in a site of its own for a statement of a
block. -/
def IsBraced (r : Rule) (w : List Lexeme) (x : Tree × List Site) : Prop :=
  Derives r w x.1 ∧ ∃ fs, Braces w fs ∧
    x.2 = if r = .blockStatement then [.statement w fs] else fs

theorem Reading.braces {ps : List Part} {w : List Lexeme} {xs : List (Tree × List Site)}
    (h : Reading (fun l => (.leaf l, [])) IsBraced ps w xs) (hp : areLevel ps) :
    Braces w (xs.flatMap Prod.snd) := by
  induction h with
  | nil => exact .nil
  | skip _ ih | take _ ih =>
    rw [areLevel, Bool.and_eq_true] at hp
    exact .lexeme (of_decide_eq_true hp.1) (ih hp.2)
  | rule hu _ ih =>
    rw [areLevel, Bool.and_eq_true] at hp
    obtain ⟨-, fs, hfs, hx⟩ := hu
    rw [if_neg (of_decide_eq_true hp.1)] at hx
    rw [List.flatMap_cons, hx]
    exact hfs.append (ih hp.2)
  | without _ ih | stop _ ih =>
    rw [areLevel, Bool.and_eq_true] at hp
    exact ih hp.2
  | with_ _ _ ih ih' =>
    rw [areLevel, Bool.and_eq_true] at hp
    rw [List.flatMap_append]
    exact (ih hp.1).append (ih' hp.2)
  | more _ _ ih ih' =>
    have hp' := hp
    rw [areLevel, Bool.and_eq_true] at hp
    rw [List.flatMap_append]
    exact (ih hp.1).append (ih' hp')

theorem Repeats.statements {w : List Lexeme} {xs : List (Tree × List Site)}
    (h : Repeats (fun l => (.leaf l, [])) IsBraced [.rule .blockStatement] w xs) :
    Statements w (xs.flatMap Prod.snd) := by
  induction h with
  | nil => exact .nil
  | cons hu _ ih =>
    obtain ⟨u, x, _, _, rfl, rfl, ⟨hd, fs, hfs, hx⟩, hn⟩ := Reading.rule_iff.mp hu
    obtain ⟨rfl, rfl⟩ := Reading.nil_iff.mp hn
    obtain ⟨_, -, s, s', hs, -⟩ := hd.exists_item
    rw [List.flatMap_append, List.flatMap_singleton, hx, List.append_nil]
    exact .cons hs.is hfs ih

/-- Only blocks have braces. -/
theorem areLevel_of_ne_block {r : Rule} {p : Production} (hr : r ≠ .block)
    (hp : p ∈ r.productions) : areLevel p.parts := by
  have hall : ∀ {ps : List Production}, (ps.all fun p => areLevel p.parts) → p ∈ ps →
      areLevel p.parts := fun hps hp => List.all_eq_true.mp hps p hp
  cases r with
  | binary p | operator p => cases p <;> exact hall (by decide) hp
  | block => exact absurd rfl hr
  | _ => exact hall (by decide) hp

theorem sites_of_ne_block {r : Rule} {w : List Lexeme} {fs : List Site} (hr : r ≠ .block) :
    r.sites w fs = if r = .blockStatement then [.statement w fs] else fs := by
  unfold Rule.sites
  split
  · exact absurd rfl hr
  · rfl
  · rw [if_neg ‹_›]

theorem LaidOut.isBraced {r : Rule} {w : List Lexeme} {x : Tree × List Site} (h : LaidOut r w x) :
    IsBraced r w x := by
  refine h.induct (motive := IsBraced) ?_
  intro r p w xs hp hr
  refine ⟨.intro hp (hr.map Prod.fst (fun _ => rfl) fun _ _ _ h => h.1), ?_⟩
  by_cases hb : r = .block
  · subst hb
    simp only [Rule.productions, List.mem_singleton] at hp
    obtain rfl := hp
    obtain ⟨y, _, rfl, h₁⟩ := Reading.skip_iff.mp hr
    obtain ⟨u, us, _, _, rfl, rfl, hu, h₂⟩ := Reading.many_iff.mp h₁
    obtain ⟨z, _, rfl, h₃⟩ := Reading.skip_iff.mp h₂
    obtain ⟨rfl, rfl⟩ := Reading.nil_iff.mp h₃
    refine ⟨_, .block hu.statements .nil, ?_⟩
    rw [List.append_nil, if_neg (by decide)]
    rfl
  · exact ⟨_, hr.braces (areLevel_of_ne_block hb hp), sites_of_ne_block hb⟩

theorem Derives.exists_laidOut {r : Rule} {w : List Lexeme} {t : Tree} (h : Derives r w t) :
    ∃ fs, LaidOut r w (t, fs) := by
  refine h.induct (motive := fun r w t => ∃ fs, LaidOut r w (t, fs)) ?_
  intro r p w ts hp hr
  have hr : Reading Tree.leaf (fun r u t => ∃ x : Tree × List Site, x.1 = t ∧ LaidOut r u x) p.parts
      w ts := hr.mono fun r u t ⟨fs, h⟩ => ⟨(t, fs), rfl, h⟩
  have hleaf : ∀ l, Prod.fst ((.leaf l, []) : Tree × List Site) = .leaf l := fun _ => rfl
  obtain ⟨xs, hx, rfl⟩ := hr.exists_map Prod.fst hleaf
  exact ⟨_, .intro hp hx⟩

/-- The sites are the same in all derivations. -/
theorem LaidOut.eq {w : List Lexeme} {t t' : Tree} {fs fs' : List Site}
    (h : LaidOut .start w (t, fs)) (h' : LaidOut .start w (t', fs')) : fs = fs' := by
  obtain ⟨-, _, hb, rfl⟩ := h.isBraced
  obtain ⟨-, _, hb', rfl⟩ := h'.isBraced
  exact hb.eq hb'

end MemberAccess.Java.Ebnf
