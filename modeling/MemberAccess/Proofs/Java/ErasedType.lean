import MemberAccess.Proofs.Java.Outline
import MemberAccess.Proofs.Java.WrittenType

/-!
# Types without their arguments

In a type that is written without comments, angle brackets match, and the outermost lists in angle
brackets are the lists of arguments of its class. Erasure takes these and nothing else exactly if
each of them is on one line, and no two of them are on the same line.
-/

namespace MemberAccess.Java

open Nonterminal Lexer MemberAccess.Java.TypeName

variable {t x : Text} {u w w' : List Lexeme} {l : Lexeme}

/-- The text is the lexemes with spaces around them, whether or not they can be told apart. -/
inductive Laid : Text → List Lexeme → Prop where
  | nil : Laid [] []
  | space {c : CodePoint} {t : Text} {w : List Lexeme} :
    isSpace c = true → Laid t w → Laid (c :: t) w
  | lexeme {t : Text} {w : List Lexeme} (l : Lexeme) : Laid t w → Laid (l.text ++ t) (l :: w)

theorem Spelled.laid (h : Spelled t w) : Laid t w := by
  induction h with
  | nil => exact .nil
  | space hc _ ih => exact .space hc ih
  | @lexeme k x _ _ _ _ ih => exact .lexeme ⟨k, x⟩ ih

namespace Laid

theorem spaces (hx : x.all isSpace = true) (h : Laid t w) : Laid (x ++ t) w := by
  induction x with
  | nil => exact h
  | cons c x ih =>
    rw [List.all_cons, Bool.and_eq_true] at hx
    exact .space hx.1 (ih hx.2)

theorem exists_cons (h : Laid t (l :: w)) :
    ∃ s r, s.all isSpace = true ∧ t = s ++ (l.text ++ r) ∧ Laid r w := by
  generalize hv : l :: w = v at h
  induction h with
  | nil => cases hv
  | @space c _ _ hc _ ih =>
    obtain ⟨s, r, hs, rfl, hr⟩ := ih hv
    exact ⟨c :: s, r, by rw [List.all_cons, hc, hs]; rfl, rfl, hr⟩
  | lexeme l h _ =>
    cases hv
    exact ⟨[], _, rfl, rfl, h⟩

theorem exists_append (h : Laid t (w ++ w')) : ∃ x r, t = x ++ r ∧ Laid x w ∧ Laid r w' := by
  induction w generalizing t with
  | nil => exact ⟨[], t, rfl, .nil, h⟩
  | cons l w ih =>
    obtain ⟨s, r, hs, rfl, hr⟩ := h.exists_cons
    obtain ⟨x, r, rfl, hx, hr⟩ := ih hr
    exact ⟨s ++ (l.text ++ x), r, by simp, (Laid.lexeme l hx).spaces hs, hr⟩

end Laid

theorem bracketless_of_forall {p : CodePoint → Bool} (hp : ∀ c ∈ Text.ofString "<>", p c = false)
    (h : x.all p = true) : Bracketless x := by
  have hx : ∀ c ∈ Text.ofString "<>", c ∉ x := fun c hc hm => by
    have := List.all_eq_true.mp h c hm
    rw [hp c hc] at this
    cases this
  exact ⟨hx _ (by decide), hx _ (by decide)⟩

theorem bracketless_spaces (h : x.all isSpace = true) : Bracketless x :=
  bracketless_of_forall (by decide) h

theorem bracketless_name (h : IsIdentifier x) : Bracketless (nameLexeme x).text :=
  bracketless_of_forall (p := isIdentifierPart) (by decide +kernel) (isIdentifier_iff.mp h).1.2

theorem bracketless_keyword (k : Keyword) : Bracketless (keywordLexeme k).text := by
  have hall : ∀ k ∈ Keyword.all, CodePoint.ofChar '<' ∉ k.text ∧ CodePoint.ofChar '>' ∉ k.text := by
    decide
  exact ⟨(hall k k.mem_all).1, (hall k k.mem_all).2⟩

theorem bracketless_mark {m : Mark}
    (h : m ∈ [.leftBracket, .rightBracket, .dot, .comma, .question, .ellipsis]) :
    Bracketless (markLexeme m).text := by
  have hall : ∀ m ∈ [Mark.leftBracket, .rightBracket, .dot, .comma, .question, .ellipsis],
      CodePoint.ofChar '<' ∉ m.text ∧ CodePoint.ofChar '>' ∉ m.text := by decide
  exact ⟨(hall m h).1, (hall m h).2⟩

def IsBracketless (w : List Lexeme) : Prop := ∀ l ∈ w, Bracketless l.text

theorem isBracketless_nil : IsBracketless [] := fun _ h => by cases h

theorem IsBracketless.cons (hl : Bracketless l.text) (h : IsBracketless w) :
    IsBracketless (l :: w) :=
  List.forall_mem_cons.mpr ⟨hl, h⟩

theorem isBracketless_brackets (k : Nat) : IsBracketless (brackets k) := by
  induction k with
  | zero => exact isBracketless_nil
  | succ k ih =>
    exact .cons (bracketless_mark (by decide)) (.cons (bracketless_mark (by decide)) ih)

theorem Laid.bracketless (h : Laid t w) (hw : IsBracketless w) : Bracketless t := by
  induction h with
  | nil => exact ⟨by simp, by simp⟩
  | @space c _ _ hc _ ih =>
    exact bracketless_append_iff.mpr ⟨bracketless_spaces (x := [c]) (by simp [hc]), ih hw⟩
  | lexeme l _ ih =>
    rw [IsBracketless, List.forall_mem_cons] at hw
    exact bracketless_append_iff.mpr ⟨hw.1, ih hw.2⟩

/-- However the lexemes are laid out, angle brackets match. -/
def IsMatched (w : List Lexeme) : Prop := ∀ t, Laid t w → Matched t

namespace IsMatched

theorem of_isBracketless (h : IsBracketless w) : IsMatched w :=
  fun _ ht => (ht.bracketless h).matched

theorem append (h : IsMatched w) (h' : IsMatched w') : IsMatched (w ++ w') := by
  intro t ht
  obtain ⟨x, r, rfl, hx, hr⟩ := ht.exists_append
  exact (h x hx).append (h' r hr)

theorem cons (hl : Bracketless l.text) (h : IsMatched w) : IsMatched (l :: w) :=
  (of_isBracketless (w := [l]) (isBracketless_nil.cons hl)).append h

/-- What is between the brackets of a list of arguments. -/
theorem arguments {us : List (List Lexeme)} (hu : IsMatched u) (hus : ∀ v ∈ us, IsMatched v) :
    IsMatched (u ++ us.flatMap (markLexeme .comma :: ·)) := by
  refine hu.append ?_
  induction us with
  | nil => exact of_isBracketless isBracketless_nil
  | cons v us ih =>
    rw [List.forall_mem_cons] at hus
    rw [List.flatMap_cons]
    exact (hus.1.cons (bracketless_mark (by decide))).append (ih hus.2)

end IsMatched

/-- Before and after a list of arguments there is white space only. -/
theorem Laid.exists_angles {us : List (List Lexeme)} (hu : IsMatched u)
    (hus : ∀ v ∈ us, IsMatched v) (h : Laid t (inAngles (u :: us))) : ∃ s y r,
      t = s ++ CodePoint.ofChar '<' :: (y ++ CodePoint.ofChar '>' :: r) ∧
      Bracketless s ∧ Matched y ∧ Bracketless r := by
  rw [inAngles, ← List.append_assoc] at h
  obtain ⟨s, t, hs, rfl, ht⟩ := h.exists_cons
  obtain ⟨y, t, rfl, hy, ht⟩ := ht.exists_append
  obtain ⟨s', r, hs', rfl, hr⟩ := ht.exists_cons
  refine ⟨s, y ++ s', r, ?_, bracketless_spaces hs, ?_, hr.bracketless isBracketless_nil⟩
  · rw [List.append_assoc]
    rfl
  · exact (hu.arguments hus y hy).append (bracketless_spaces hs').matched

theorem IsMatched.inAngles {us : List (List Lexeme)} (h : ∀ u ∈ us, IsMatched u) :
    IsMatched (inAngles us) := by
  cases us with
  | nil => exact of_isBracketless isBracketless_nil
  | cons u us =>
    rw [List.forall_mem_cons] at h
    intro t ht
    obtain ⟨s, y, r, rfl, hs, hy, hr⟩ := ht.exists_angles h.1 h.2
    exact hs.matched.append (.angles hy hr.matched)

mutual

theorem WrittenType.isMatched : (s : WrittenType) → s.IsNamed → IsMatched s.lexemes
  | .primitive p k, _ => by
    rw [WrittenType.lexemes]
    exact .cons (bracketless_keyword _) (.of_isBracketless (isBracketless_brackets k))
  | .reference c k, h => by
    rw [WrittenType.lexemes]
    exact (c.isMatched h).append (.of_isBracketless (isBracketless_brackets k))

theorem WrittenClass.isMatched : (c : WrittenClass) → c.IsNamed → IsMatched c.lexemes
  | .last x as, h => by
    rw [WrittenClass.lexemes]
    exact .cons (bracketless_name h.1) (.inAngles (WrittenArgument.forall_isMatched as h.2))
  | .part x as rest, h => by
    rw [WrittenClass.lexemes]
    have hrest := (rest.isMatched h.2.2).cons (bracketless_mark (m := .dot) (by decide))
    exact .cons (bracketless_name h.1)
      ((IsMatched.inAngles (WrittenArgument.forall_isMatched as h.2.1)).append hrest)

theorem WrittenArgument.isMatched : (a : WrittenArgument) → a.IsNamed → IsMatched a.lexemes
  | .type t, h => t.isMatched h
  | .any, _ => .cons (bracketless_mark (by decide)) (.of_isBracketless isBracketless_nil)
  | .extending t, h => .cons (bracketless_mark (by decide))
      (.cons (bracketless_keyword _) (t.isMatched h))
  | .superOf t, h => .cons (bracketless_mark (by decide))
      (.cons (bracketless_keyword _) (t.isMatched h))

theorem WrittenArgument.forall_isMatched : (as : List WrittenArgument) →
    WrittenArgument.AllNamed as → ∀ u ∈ WrittenArgument.lexemesOf as, IsMatched u
  | [], _ => by simp [WrittenArgument.lexemesOf]
  | a :: as, h => by
    rw [WrittenArgument.lexemesOf, List.forall_mem_cons]
    exact ⟨a.isMatched h.1, WrittenArgument.forall_isMatched as h.2⟩

end

/-- A part of a name comes before what has a dot before its own lists. -/
theorem exists_outline_part {us : List (List Lexeme)} (hx : IsIdentifier x)
    (hus : ∀ u ∈ us, IsMatched u) (h : Laid t (nameLexeme x :: (inAngles us ++ w)))
    (hrest : ∀ r, Laid r w → ∃ o : Outline, o.IsRegular ∧ o.text = r ∧
      (o.lists ≠ [] → CodePoint.ofChar '.' ∈ o.first)) :
    ∃ o : Outline, o.IsRegular ∧ o.text = t := by
  obtain ⟨s, t, hs, rfl, ht⟩ := h.exists_cons
  obtain ⟨z, r, rfl, hz, hr⟩ := ht.exists_append
  obtain ⟨o, ho, rfl, hdot⟩ := hrest r hr
  have hbefore := bracketless_append_iff.mpr ⟨bracketless_spaces hs, bracketless_name hx⟩
  cases us with
  | nil =>
    have hz := hz.bracketless isBracketless_nil
    exact ⟨_, ho.append (bracketless_append_iff.mpr ⟨hbefore, hz⟩), by simp [Outline.text]⟩
  | cons u us =>
    rw [List.forall_mem_cons] at hus
    obtain ⟨s', y, r', rfl, hs', hy, hr'⟩ := hz.exists_angles hus.1 hus.2
    have hlist := (ho.append hr').angles (bracketless_append_iff.mpr ⟨hbefore, hs'⟩) hy
      fun hne => List.mem_append_right r' (hdot hne)
    exact ⟨_, hlist, by simp [Outline.text, AngleList.text]⟩

/-- A class type has an outline, whatever comes after it without angle brackets. -/
theorem WrittenClass.exists_outline : (c : WrittenClass) → c.IsNamed → IsBracketless w →
    (t : Text) → Laid t (c.lexemes ++ w) → ∃ o : Outline, o.IsRegular ∧ o.text = t
  | .last x as, h, hw, t, ht => by
    rw [WrittenClass.lexemes, List.cons_append] at ht
    refine exists_outline_part h.1 (WrittenArgument.forall_isMatched as h.2) ht fun r hr => ?_
    exact ⟨_, Outline.isRegular_of_bracketless (hr.bracketless hw), List.append_nil r,
      fun hne => absurd rfl hne⟩
  | .part x as rest, h, hw, t, ht => by
    rw [WrittenClass.lexemes, List.cons_append, List.append_assoc, List.cons_append] at ht
    refine exists_outline_part h.1 (WrittenArgument.forall_isMatched as h.2.1) ht fun r hr => ?_
    obtain ⟨s, t, hs, rfl, ht⟩ := hr.exists_cons
    obtain ⟨o, ho, rfl⟩ := rest.exists_outline h.2.2 hw t ht
    have hdot : Bracketless (s ++ (markLexeme .dot).text) :=
      bracketless_append_iff.mpr ⟨bracketless_spaces hs, bracketless_mark (by decide)⟩
    exact ⟨_, ho.append hdot, by simp [Outline.text], fun _ =>
      List.mem_append_left _ (List.mem_append_right s (.head _))⟩

theorem WrittenType.exists_outline (s : WrittenType) (h : s.IsNamed) (hw : IsBracketless w)
    (ht : Laid t (s.lexemes ++ w)) : ∃ o : Outline, o.IsRegular ∧ o.text = t := by
  cases s with
  | primitive p k =>
    have hk : IsBracketless (keywordLexeme (.primitive p) :: (brackets k ++ w)) :=
      .cons (bracketless_keyword _) (List.forall_mem_append.mpr ⟨isBracketless_brackets k, hw⟩)
    rw [WrittenType.lexemes, List.cons_append] at ht
    exact ⟨_, Outline.isRegular_of_bracketless (ht.bracketless hk), List.append_nil t⟩
  | reference c k =>
    rw [WrittenType.lexemes, List.append_assoc] at ht
    exact c.exists_outline h (List.forall_mem_append.mpr ⟨isBracketless_brackets k, hw⟩) t ht

/-- A type without comments has an outline, which is what stands outside angle brackets. Erasure
leaves the outline if each of its lists of arguments is on one line and no two are on the same line,
and in no other case are these lists all that is dropped. Of lists that are on one line each, those
on the same line are lost with what stands between them. -/
theorem erase_type {e : List Lexeme} {v : TypeExpr} {isVariadic : Bool} (ht : Spelled t (u ++ e))
    (hu : type.Derives u v) (he : (flag (.mark .ellipsis)).Derives e isVariadic) :
    (∃ o : Outline, o.IsRegular ∧ o.text = t) ∧ ∀ o : Outline, o.IsRegular → o.text = t →
      outside 0 t = o.outer ∧
      (o.OnePerLine → erase t = Text.trim (outside 0 t)) ∧
      (dropArguments 0 t = outside 0 t → o.OnePerLine) ∧
      (o.IsInline → erase t = Text.trim o.kept ∧
        (erase t = Text.trim (outside 0 t) → o.OnePerLine)) := by
  have hreadable : ∀ l ∈ u ++ e, Readable l := fun l hl => (ht.forall_mem l hl).2
  rw [List.forall_mem_append] at hreadable
  -- The brackets of arguments are all that the type has, and an ellipsis has none.
  have hellipsis : IsBracketless e := by
    rcases derives_flag.mp he with ⟨⟨x, rfl⟩, -⟩ | ⟨rfl, -⟩
    · rw [eq_markLexeme (hreadable.2 _ (.head _))]
      exact .cons (bracketless_mark (by decide)) isBracketless_nil
    · exact isBracketless_nil
  obtain ⟨s, hs, rfl, rfl⟩ := exists_written hreadable.1 hu
  refine ⟨s.exists_outline hs hellipsis ht.laid, ?_⟩
  rintro o ho rfl
  rw [ho.outside_text]
  refine ⟨rfl, fun hline => ?_, ho.dropArguments_text_eq_iff.mp, fun hinline => ?_⟩
  · rw [erase, ho.dropArguments_text_eq_iff.mpr hline]
  · have hkept : erase o.text = Text.trim o.kept := by rw [erase, ho.dropArguments_text hinline]
    exact ⟨hkept, fun he => ho.onePerLine_of_trim hinline (hkept.symm.trans he)⟩

theorem erase_type_twoLines :
    let s : WrittenType := .reference (.part "a" [] (.part "Outer"
      [namedArgument "K", .type (.reference (.last "V" [.type (.primitive .int 1)]) 0)]
      (.last "Inner" [namedArgument "V"]))) 1
    let t : Text := "a.Outer<K, V<int[]>>\n.Inner<V>[] ..."
    let o : Outline := ⟨"a.Outer", [⟨"K, V<int[]>", "\n.Inner"⟩, ⟨"V", "[] ..."⟩]⟩
    Spelled t (s.lexemes ++ [markLexeme .ellipsis]) ∧ o.IsRegular ∧ o.text = t ∧ o.OnePerLine ∧
      erase t = Text.trim (outside 0 t) ∧ outside 0 t = "a.Outer\n.Inner[] ..." := by
  intro s t o
  have hspelled : Spelled t (s.lexemes ++ [markLexeme .ellipsis]) :=
    (Worded.of_scan (i := true) (by decide +kernel)).spelled
  have hv : Matched (Text.ofString "V<int[]>") :=
    (Bracketless.matched ⟨by decide, by decide⟩ : Matched (Text.ofString "V")).append
      (.angles (x := Text.ofString "int[]") (Bracketless.matched ⟨by decide, by decide⟩) .nil)
  have hkv : Matched (Text.ofString "K, V<int[]>") :=
    (Bracketless.matched ⟨by decide, by decide⟩ : Matched (Text.ofString "K, ")).append hv
  have hregular : o.IsRegular := by
    refine ⟨⟨by decide, by decide⟩, ?_, ?_, by decide⟩ <;>
      simp only [o, List.forall_mem_cons]
    · exact ⟨hkv, Bracketless.matched ⟨by decide, by decide⟩, by simp⟩
    · exact ⟨⟨by decide, by decide⟩, ⟨by decide, by decide⟩, by simp⟩
  have hline : o.OnePerLine := ⟨by simp only [Outline.IsInline]; decide, by decide⟩
  obtain ⟨-, herase⟩ := erase_type hspelled s.derives (derives_flag.mpr (.inl ⟨⟨_, rfl⟩, rfl⟩))
  obtain ⟨houter, htrim, -⟩ := herase o hregular (by decide)
  exact ⟨hspelled, hregular, by decide, hline, htrim hline, houter.trans (by decide)⟩

/-- Of two lists on one line what is between them is lost, and a list with a line feed in it is not
dropped at all. -/
theorem exists_type_misread :
    (∃ w v, Spelled "a.Outer<K>.Inner<V>" w ∧ type.Derives w v ∧
      erase "a.Outer<K>.Inner<V>" = "a.Outer" ∧
      Text.trim (outside 0 "a.Outer<K>.Inner<V>") = "a.Outer.Inner") ∧
    ∃ w v, Spelled "java.util.Map<K,\nV>" w ∧ type.Derives w v ∧
      erase "java.util.Map<K,\nV>" = "java.util.Map<K,\nV>" ∧
      Text.trim (outside 0 "java.util.Map<K,\nV>") = "java.util.Map" := by
  let nested := nestedType [namedArgument "K"] [namedArgument "V"]
  let map : WrittenType := .reference (.part "java" [] (.part "util" []
    (.last "Map" [namedArgument "K", namedArgument "V"]))) 0
  have hnested : IsPiece "a.Outer<K>.Inner<V>" nested.lexemes := by decide +kernel
  have hmap : IsPiece "java.util.Map<K,\nV>" map.lexemes := by decide +kernel
  exact ⟨⟨_, _, (Worded.of_scan (i := true) hnested).spelled, nested.derives, by decide, by decide⟩,
    _, _, (Worded.of_scan (i := true) hmap).spelled, map.derives, by decide, by decide⟩

end MemberAccess.Java
