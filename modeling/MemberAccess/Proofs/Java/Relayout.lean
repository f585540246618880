import MemberAccess.Proofs.Java.Padding

/-!
# Layout around tokens

A text that can be read to its end is its tokens with white space and comments around them. With
other white space and comments it is read as the same lexemes, if white space begins them wherever
they can stand, and if it is a method it stays the same one.
-/

namespace MemberAccess.Java

open Lexer

/-- White space and comments. A comment to the end of a line has its line feed. -/
inductive Filler : Text → Prop where
  | nil : Filler []
  | space {c : CodePoint} {g : Text} : isSpace c = true → Filler g → Filler (c :: g)
  | line {x g : Text} : CodePoint.ofChar '\n' ∉ x → Filler g →
    Filler ('/' :: '/' :: (x ++ CodePoint.ofChar '\n' :: g))
  | block {x g : Text} : ¬ commentClose <:+: x → Filler g →
    Filler ('/' :: '*' :: (x ++ (commentClose ++ g)))

/-- White space and comments that white space begins. -/
def IsGap (g : Text) : Prop := Filler g ∧ Text.beginsWith isSpace g = true

/-- What can stand at the end of a text: the last comment needs no line feed. -/
def IsEnd (g : Text) : Prop :=
  Filler g ∨ ∃ g' x, Filler g' ∧ CodePoint.ofChar '\n' ∉ x ∧
    g = g' ++ CodePoint.ofChar '/' :: '/' :: x

/-- A text made of lexemes, each with what is written after it, and of what is written first. -/
def withGaps (first : Text) : List (Lexeme × Text) → Text
  | [] => first
  | (l, next) :: w => first ++ (l.text ++ withGaps next w)

/-- The lexemes at their places, where `first` begins at `p`. -/
def placed (p : Position) (first : Text) : List (Lexeme × Text) → List Token
  | [] => []
  | (l, next) :: w =>
    ⟨l, p.advance first⟩ :: placed ((p.advance first).advance l.text) next w

/-- Nothing but white space and comments is written around the lexemes. -/
def IsSkipped (first : Text) : List (Lexeme × Text) → Prop
  | [] => IsEnd first
  | (_, next) :: w => Filler first ∧ IsSkipped next w

variable {x y r g t first unread : Text} {p : Position} {tokens : List Token}
  {w : List (Lexeme × Text)}

theorem map_placed (p : Position) (first : Text) (w : List (Lexeme × Text)) :
    (placed p first w).map (·.toLexeme) = w.map Prod.fst := by
  induction w generalizing p first with
  | nil => rfl
  | cons l w ih => rw [placed, List.map_cons, List.map_cons, ih]

theorem advance_append (p : Position) (x y : Text) :
    p.advance (x ++ y) = (p.advance x).advance y :=
  List.foldl_append

/-- A filler is passed over, whatever comes after it. -/
theorem Filler.scans (hg : Filler g) (h : Scans (p.advance g) t tokens unread) :
    Scans p (g ++ t) tokens unread := by
  induction hg generalizing p with
  | nil => exact h
  | space hc _ ih => exact .space hc (ih h)
  | @line x g hx _ ih =>
    have hadvance := advance_append p (CodePoint.ofChar '/' :: '/' :: x) (CodePoint.ofChar '\n' :: g)
    rw [List.cons_append, List.cons_append] at hadvance
    rw [hadvance] at h
    have hfeed : (CodePoint.ofChar '\n' != '\n') = false := by decide
    have hs := (IsLayout.line (r := CodePoint.ofChar '\n' :: (g ++ t)) hx hfeed).scans
      (.space (by decide) (ih h))
    rw [List.cons_append, List.cons_append] at hs
    rwa [List.cons_append, List.cons_append, List.append_assoc]
  | @block x g hx _ ih =>
    have hadvance := advance_append p (CodePoint.ofChar '/' :: '*' :: (x ++ commentClose)) g
    rw [List.cons_append, List.cons_append, List.append_assoc] at hadvance
    rw [hadvance] at h
    have hs := (IsLayout.block (r := g ++ t) hx).scans (ih h)
    rw [List.cons_append, List.cons_append, List.append_assoc] at hs
    rwa [List.cons_append, List.cons_append, List.append_assoc, List.append_assoc]

/-- A lexeme does not begin with white space. -/
theorem Readable.exists_cons {l : Lexeme} (h : Readable l) :
    ∃ c x, l.text = c :: x ∧ isSpace c = false := by
  obtain ⟨r, hr⟩ := h
  have hl := lexeme?_eq_some_iff.mpr hr
  obtain ⟨c, x, hx⟩ := Scan.exists_cons_of_lexeme? hl
  refine ⟨c, x, hx, ?_⟩
  rw [Bool.eq_false_iff]
  intro hc
  rw [hx, List.cons_append, lexeme?_space hc] at hl
  cases hl

/-- Lexemes are read as they were written, wherever gaps are put between them. -/
theorem scans_withGaps (hw : ∀ l ∈ w, Readable l.1) (hfirst : Filler first)
    (hgaps : ∀ l ∈ w, IsGap l.2) (p : Position) :
    Scans p (withGaps first w) (placed p first w) [] := by
  induction w generalizing p first with
  | nil =>
    have hs := hfirst.scans (p := p) .done
    rwa [List.append_nil] at hs
  | cons l w ih =>
    obtain ⟨l, next⟩ := l
    rw [List.forall_mem_cons] at hw hgaps
    obtain ⟨r, hr⟩ := hw.1
    obtain ⟨hnext, hspace⟩ := hgaps.1
    have hrest := ih hw.2 hnext hgaps.2 ((p.advance first).advance l.text)
    refine hfirst.scans (.token (lexeme?_eq_some_iff.mpr ?_) hrest)
    obtain ⟨c, next, rfl, hc⟩ := Text.beginsWith_iff.mp hspace
    have htext : ∃ s, withGaps (c :: next) w = c :: s := by
      cases w with
      | nil => exact ⟨next, rfl⟩
      | cons l w => exact ⟨_, rfl⟩
    obtain ⟨s, hs⟩ := htext
    rw [hs]
    exact hr.separator (mem_separators_of_isSpace hc)

theorem Filler.append (hx : Filler x) (hg : Filler g) : Filler (x ++ g) := by
  induction hx with
  | nil => exact hg
  | space hc _ ih => exact .space hc ih
  | line hx _ ih =>
    rw [List.cons_append, List.cons_append, List.append_assoc]
    exact .line hx ih
  | block hx _ ih =>
    rw [List.cons_append, List.cons_append, List.append_assoc, List.append_assoc]
    exact .block hx ih

theorem Filler.of_all (h : x.all isSpace = true) : Filler x := by
  induction x with
  | nil => exact .nil
  | cons c x ih =>
    rw [List.all_cons, Bool.and_eq_true] at h
    exact .space h.1 (ih h.2)

theorem Filler.of_space {c : CodePoint} (hc : isSpace c = true) (h : Filler (c :: g)) :
    Filler g := by
  cases h with
  | space _ h => exact h
  | line | block => exact absurd hc (by decide)

theorem IsEnd.of_space {c : CodePoint} (hc : isSpace c = true) (h : IsEnd (c :: g)) : IsEnd g := by
  rcases h with h | ⟨g', x, hg', hx, he⟩
  · exact .inl (h.of_space hc)
  · cases g' with
    | nil =>
      obtain ⟨rfl, -⟩ := List.cons_eq_cons.mp he
      exact absurd hc (by decide)
    | cons d g' =>
      obtain ⟨rfl, rfl⟩ := List.cons_eq_cons.mp he
      exact .inr ⟨g', x, hg'.of_space hc, hx, rfl⟩

theorem IsSkipped.of_space {c : CodePoint} (hc : isSpace c = true)
    (h : IsSkipped (c :: first) w) : IsSkipped first w := by
  cases w with
  | nil => exact IsEnd.of_space hc h
  | cons l w => exact ⟨h.1.of_space hc, h.2⟩

theorem IsSkipped.append (hx : Filler x) (h : IsSkipped first w) : IsSkipped (x ++ first) w := by
  cases w with
  | nil =>
    rcases h with h | ⟨g', y, hg', hy, rfl⟩
    · exact .inl (hx.append h)
    · exact .inr ⟨x ++ g', y, hx.append hg', hy, (List.append_assoc ..).symm⟩
  | cons l w => exact ⟨hx.append h.1, h.2⟩

theorem withGaps_append (x first : Text) (w : List (Lexeme × Text)) :
    withGaps (x ++ first) w = x ++ withGaps first w := by
  cases w with
  | nil => rfl
  | cons l w => exact List.append_assoc ..

theorem placed_append (p : Position) (x first : Text) (w : List (Lexeme × Text)) :
    placed p (x ++ first) w = placed (p.advance x) first w := by
  cases w with
  | nil => rfl
  | cons l w => rw [placed, placed, advance_append]

/-- A line feed is skipped. -/
theorem eq_nil_or_lineFeed (hw : ∀ l ∈ w, Readable l.1)
    (h : Text.beginsWith (· != '\n') (withGaps first w) = false) :
    (first = [] ∧ w = []) ∨ ∃ g, first = CodePoint.ofChar '\n' :: g := by
  cases first with
  | cons c g =>
    refine .inr ⟨g, ?_⟩
    obtain rfl : c = '\n' := by cases w <;> simpa [withGaps] using h
    rfl
  | nil =>
    cases w with
    | nil => exact .inl ⟨rfl, rfl⟩
    | cons l w =>
      obtain ⟨c, x, hx, hc⟩ := (hw l (.head _)).exists_cons
      obtain rfl : c = '\n' := by simpa [withGaps, hx] using h
      exact absurd hc (by decide)

/-- What has been read to its end is its lexemes and what has been skipped around them. -/
theorem Scans.exists_withGaps (h : Scans p t tokens []) :
    ∃ first w, t = withGaps first w ∧ tokens = placed p first w ∧ IsSkipped first w := by
  generalize hu : ([] : Text) = unread at h
  induction h with
  | done => exact ⟨[], [], rfl, rfl, .inl .nil⟩
  | stuck hne => exact absurd hu.symm hne
  | @layout p x rest unread tokens hx hrest ih =>
    obtain ⟨first, w, rfl, rfl, hskipped⟩ := ih hu
    refine ⟨x ++ first, w, (withGaps_append x first w).symm, (placed_append p x first w).symm, ?_⟩
    cases isLayout_of_lexeme? hx with
    | spaces hall => exact hskipped.append (.of_all hall)
    | block hy => exact hskipped.append (.block hy .nil)
    | @line y hy hr =>
      have hw : ∀ l ∈ w, Readable l.1 := by
        intro l hl
        obtain ⟨token, htoken, he⟩ := List.mem_map.mp
          (map_placed (p.advance _) first w ▸ List.mem_map_of_mem hl)
        exact he ▸ hrest.readable token htoken
      rcases eq_nil_or_lineFeed hw hr with ⟨rfl, rfl⟩ | ⟨g, rfl⟩
      · exact .inr ⟨[], y, .nil, hy, List.append_nil _⟩
      · have hg := (hskipped.of_space (by decide)).append (Filler.line hy .nil)
        simpa using hg
  | @token p x rest unread k tokens hx hrest ih =>
    obtain ⟨first, w, rfl, rfl, hskipped⟩ := ih hu
    exact ⟨[], (⟨k, x⟩, first) :: w, rfl, rfl, .nil, hskipped⟩

/-- The lexemes of a text are written with white space and comments around them. White space begins
each stretch between two of them and the one after the last. -/
structure IsRelayout (t first : Text) (w : List (Lexeme × Text)) : Prop where
  lexemes : w.map Prod.fst = (scan t).tokens.map (·.toLexeme)
  first : Filler first
  gaps : ∀ l ∈ w, IsGap l.2

theorem IsRelayout.scan_eq (h : IsRelayout t first w) :
    scan (withGaps first w) = ⟨placed .start first w, []⟩ := by
  refine scan_eq_iff.mpr (scans_withGaps (fun l hl => ?_) h.first h.gaps .start)
  obtain ⟨token, htoken, he⟩ := List.mem_map.mp (h.lexemes ▸ List.mem_map_of_mem hl)
  exact he ▸ (scans_scan t).readable token htoken

theorem mem_withGaps {c : CodePoint} : c ∈ withGaps first w ↔
    c ∈ first ∨ ∃ l ∈ w, c ∈ l.1.text ∨ c ∈ l.2 := by
  induction w generalizing first with
  | nil => simp [withGaps]
  | cons l w ih => simp [withGaps, ih, or_assoc]

/-- A text without backslashes has no escapes. -/
theorem unescape_of_notMem (h : CodePoint.ofChar '\\' ∉ t) : unescape t = t :=
  Balanced.unescape_eq (.of_forall_ne fun _ hc he => h (he ▸ hc))

/-- The lexemes of a text without backslashes have none. -/
theorem IsRelayout.backslash_notMem (h : IsRelayout t first w) (hu : (scan t).unread = [])
    (ht : CodePoint.ofChar '\\' ∉ t) : ∀ l ∈ w, CodePoint.ofChar '\\' ∉ l.1.text := by
  intro l hl hb
  have hs := scans_scan t
  rw [hu] at hs
  obtain ⟨first', w', he, htokens, -⟩ := hs.exists_withGaps
  have hl' : l.1 ∈ w'.map Prod.fst := by
    rw [← map_placed .start first' w', ← htokens, ← h.lexemes]
    exact List.mem_map_of_mem hl
  obtain ⟨l', hl', hfst⟩ := List.mem_map.mp hl'
  exact ht (he ▸ mem_withGaps.mpr (.inr ⟨l', hl', .inl (hfst ▸ hb)⟩))

theorem parse_withGaps {m : MethodDeclaration} (h : IsRelayout t first w)
    (ht : CodePoint.ofChar '\\' ∉ t) (hfirst : CodePoint.ofChar '\\' ∉ first)
    (hgaps : ∀ l ∈ w, CodePoint.ofChar '\\' ∉ l.2) (hm : parse t = .ok m) :
    parse (withGaps first w) = .ok m := by
  rw [parse_eq_ok_iff, unescape_of_notMem ht] at hm
  have hu := (survivors_of_methodOfScan hm).1
  have hnew : unescape (withGaps first w) = withGaps first w := by
    refine unescape_of_notMem fun hb => ?_
    rcases mem_withGaps.mp hb with hb | ⟨l, hl, hb | hb⟩
    · exact hfirst hb
    · exact h.backslash_notMem hu ht l hl hb
    · exact hgaps l hl hb
  have hcongr : (methodOfScan (withGaps first w) (scan (withGaps first w))).toOption =
      (methodOfScan t (scan t)).toOption := by
    rw [h.scan_eq]
    exact methodOfScan_congr ((map_placed ..).trans h.lexemes) (by simp [hu])
  rw [hm] at hcongr
  rw [parse_eq_ok_iff, hnew]
  cases hs : methodOfScan (withGaps first w) (scan (withGaps first w)) with
  | error fault =>
    rw [hs] at hcongr
    cases hcongr
  | ok m' =>
    rw [hs] at hcongr
    exact congrArg _ (Option.some.inj hcongr)

/-- Layout does not matter. A text that can be read to its end is its lexemes and what is skipped
around them. It is read as the same lexemes whatever white space and comments are there, and is the
same method if there are no escapes. -/
theorem layout_irrelevant (t : Text) :
    ((scan t).unread = [] →
      (∃ first w, t = withGaps first w ∧ (scan t).tokens = placed .start first w ∧
        IsSkipped first w) ∧
      ∀ first w, IsRelayout t first w → (scan (withGaps first w)).unread = [] ∧
        (scan (withGaps first w)).tokens.map (·.toLexeme) = (scan t).tokens.map (·.toLexeme)) ∧
    ∀ m, parse t = .ok m → CodePoint.ofChar '\\' ∉ t →
      ∀ first w, IsRelayout t first w → CodePoint.ofChar '\\' ∉ first →
        (∀ l ∈ w, CodePoint.ofChar '\\' ∉ l.2) → parse (withGaps first w) = .ok m := by
  refine ⟨fun hu => ⟨?_, fun first w h => ?_⟩, ?_⟩
  · have hs := scans_scan t
    rw [hu] at hs
    exact hs.exists_withGaps
  · rw [h.scan_eq]
    exact ⟨rfl, (map_placed ..).trans h.lexemes⟩
  · intro m hm ht first w h hfirst hgaps
    exact parse_withGaps h ht hfirst hgaps hm

/-- A method with a comment in it is the method without. -/
theorem layout_irrelevant_comment :
    ∃ m first w, IsRelayout "void f();" first w ∧
      withGaps first w = "/* f */void\tf // x\n( ) ; " ∧
      parse "void f();" = .ok m ∧ parse "/* f */void\tf // x\n( ) ; " = .ok m := by
  obtain ⟨m, hm⟩ := exists_ok_of_isSome (show (parse "void f();").toOption.isSome by decide +kernel)
  have hspace : IsGap " " := ⟨.space (c := ' ') (by decide) .nil, rfl⟩
  have htab : IsGap "\t" := ⟨.space (c := '\t') (by decide) .nil, rfl⟩
  have hline : IsGap " // x\n" :=
    ⟨.space (c := ' ') (by decide) (.line (x := " x") (by decide) .nil), rfl⟩
  have hblock : Filler "/* f */" := .block (x := " f ") (by decide) .nil
  let w : List (Lexeme × Text) :=
    [(⟨.keyword .void, "void"⟩, "\t"), (⟨.identifier, "f"⟩, " // x\n"),
      (⟨.mark .leftParenthesis, "("⟩, " "), (⟨.mark .rightParenthesis, ")"⟩, " "),
      (⟨.mark .semicolon, ";"⟩, " ")]
  have hw : IsRelayout "void f();" "/* f */" w :=
    ⟨by decide +kernel, hblock, by simp [w, hspace, htab, hline]⟩
  exact ⟨m, _, w, hw, rfl, hm,
    (layout_irrelevant "void f();").2 m hm (by decide) _ w hw (by decide) (by decide)⟩

end MemberAccess.Java
