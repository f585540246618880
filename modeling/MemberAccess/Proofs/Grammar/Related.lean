import Mathlib.Data.List.Forall2
import MemberAccess.Proofs.Grammar.Induction

/-!
# Related derivations

A relation between values that every builder respects holds between what is derived from lexemes
whose texts are related. In particular a property that every builder keeps holds of all values.
-/

namespace MemberAccess

variable {T N : Type}

section
variable {Value : N → Type}

/-- Two builders make related results of related texts and values. -/
def Relates (texts : T → Text → Text → Prop) (R : (n : N) → Value n → Value n → Prop) {A : Type}
    (Q : A → A → Prop) : (ss : List (Symbol T N)) → Builder Value ss A → Builder Value ss A → Prop
  | [], b, b' => Q b b'
  | .skip _ :: ss, b, b' => Relates texts R Q ss b b'
  | .take t :: ss, b, b' => ∀ x x', texts t x x' → Relates texts R Q ss (b x) (b' x')
  | .node n :: ss, b, b' => ∀ v v', R n v v' → Relates texts R Q ss (b v) (b' v')

/-- The builder makes a result with the property of texts and values that have theirs. -/
def Keeps (texts : T → Text → Prop) (P : (n : N) → Value n → Prop) {A : Type} (Q : A → Prop) :
    (ss : List (Symbol T N)) → Builder Value ss A → Prop
  | [], b => Q b
  | .skip _ :: ss, b => Keeps texts P Q ss b
  | .take t :: ss, b => ∀ x, texts t x → Keeps texts P Q ss (b x)
  | .node n :: ss, b => ∀ v, P n v → Keeps texts P Q ss (b v)

theorem Keeps.relates {texts : T → Text → Prop} {P : (n : N) → Value n → Prop} {A : Type}
    {Q : A → Prop} {ss : List (Symbol T N)} {b b' : Builder Value ss A}
    (h : Keeps texts P Q ss b) :
    Relates (fun t _ x => texts t x) (fun n _ v => P n v) (fun _ a => Q a) ss b' b := by
  induction ss with
  | nil => exact h
  | cons s ss ih =>
    cases s with
    | skip t => exact ih h
    | take t => exact fun _ x hx => ih (h x hx)
    | node n => exact fun _ v hv => ih (h v hv)

end

/-- Lexemes of one terminal with related texts. -/
def SameLexeme (texts : T → Text → Text → Prop) (l l' : Lexeme T) : Prop :=
  l.terminal = l'.terminal ∧ texts l.terminal l.text l'.text

namespace Grammar

variable {G : Grammar T N} {texts : T → Text → Text → Prop}
  {R : (n : N) → G.Value n → G.Value n → Prop}

/-- Lexemes that can be read as symbols can be read so with related texts. -/
theorem ReadsBy.related {A : Type} {Q : A → A → Prop} {ss : List (Symbol T N)}
    {b b' : Builder G.Value ss A} {w w' : List (Lexeme T)} {r' : A}
    (h : ReadsBy (fun n u' v' => ∀ u, List.Forall₂ (SameLexeme texts) u u' →
      ∃ v, G.Derives n u v ∧ R n v v') ss b' w' r')
    (hb : Relates texts R Q ss b b') (hw : List.Forall₂ (SameLexeme texts) w w') :
    ∃ r, G.Reads ss b w r ∧ Q r r' := by
  induction ss generalizing w w' with
  | nil =>
    obtain ⟨rfl, rfl⟩ := h
    cases hw
    exact ⟨b, .nil _, hb⟩
  | cons s ss ih =>
    cases s with
    | skip t =>
      obtain ⟨x', w', rfl, h⟩ := h
      obtain ⟨⟨t, x⟩, w, ⟨rfl, -⟩, hws, rfl⟩ := List.forall₂_cons_right_iff.mp hw
      obtain ⟨r, hr, hq⟩ := ih h hb hws
      exact ⟨r, .skip hr, hq⟩
    | take t =>
      obtain ⟨x', w', rfl, h⟩ := h
      obtain ⟨⟨t, x⟩, w, ⟨rfl, hx⟩, hws, rfl⟩ := List.forall₂_cons_right_iff.mp hw
      obtain ⟨r, hr, hq⟩ := ih h (hb x x' hx) hws
      exact ⟨r, .take hr, hq⟩
    | node n =>
      obtain ⟨u', v', w', rfl, hu, h⟩ := h
      obtain ⟨v, ⟨a, ha, hv⟩, hvv⟩ := hu _ (List.forall₂_take_append w u' w' hw)
      obtain ⟨r, hr, hq⟩ := ih h (hb v v' hvv) (List.forall₂_drop_append w u' w' hw)
      rw [← List.take_append_drop u'.length w]
      exact ⟨r, .node ha hv hr, hq⟩

/-- What is derived from lexemes with related texts is related. -/
theorem Derives.related
    (hb : ∀ n, ∀ a ∈ G.alternatives n, Relates texts R (R n) a.symbols a.build a.build)
    {n : N} {w w' : List (Lexeme T)} {v' : G.Value n} (h : G.Derives n w' v')
    (hw : List.Forall₂ (SameLexeme texts) w w') : ∃ v, G.Derives n w v ∧ R n v v' := by
  refine h.induct (P := fun n u' v' => ∀ u, List.Forall₂ (SameLexeme texts) u u' →
    ∃ v, G.Derives n u v ∧ R n v v') (fun ha h u hu => ?_) w hw
  obtain ⟨v, hv, hr⟩ := h.related (hb _ _ ha) hu
  exact ⟨v, ⟨_, ha, hv⟩, hr⟩

/-- What all builders keep holds of all that is derived from lexemes with such texts. -/
theorem Derives.kept {texts : T → Text → Prop} {P : (n : N) → G.Value n → Prop}
    (hb : ∀ n, ∀ a ∈ G.alternatives n, Keeps texts P (P n) a.symbols a.build)
    {n : N} {w : List (Lexeme T)} {v : G.Value n} (h : G.Derives n w v)
    (hw : ∀ l ∈ w, texts l.terminal l.text) : P n v := by
  have hsame : List.Forall₂ (SameLexeme fun t _ x => texts t x) w w :=
    List.forall₂_same.mpr fun l hl => ⟨rfl, hw l hl⟩
  obtain ⟨_, -, hv⟩ := h.related (R := fun n _ v => P n v) (fun n a ha => (hb n a ha).relates) hsame
  exact hv

end Grammar

end MemberAccess
