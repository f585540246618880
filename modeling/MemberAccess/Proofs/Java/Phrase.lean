import MemberAccess.Proofs.Java.Chain
import MemberAccess.Proofs.Java.Header
import MemberAccess.Proofs.Java.Unambiguous
import MemberAccess.Proofs.Java.Wording

/-!
# Phrases

Method text can be put together from phrases: texts that are read as a nonterminal with a known
value. What has no separator at either end of a seam needs a reason of its own; everywhere else
phrases are put one after the other as they are.
-/

namespace MemberAccess.Java

open Lexer

variable {i : Bool} {x y t : Text} {u w w' : List Lexeme}

/-- The text can come after any text. -/
def BeginsApart (t : Text) : Prop := ∃ c ∈ separators, t.head? = some c

/-- Any text can come after the text. -/
def EndsApart (t : Text) : Prop := ∃ c ∈ separators, t.getLast? = some c

instance (t : Text) : Decidable (BeginsApart t) := inferInstanceAs (Decidable (∃ c ∈ separators, _))

instance (t : Text) : Decidable (EndsApart t) := inferInstanceAs (Decidable (∃ c ∈ separators, _))

theorem BeginsApart.append (h : BeginsApart x) (t : Text) : BeginsApart (x ++ t) := by
  obtain ⟨c, hc, hx⟩ := h
  exact ⟨c, hc, by rw [List.head?_append, hx, Option.some_or]⟩

theorem EndsApart.append (h : EndsApart t) (x : Text) : EndsApart (x ++ t) := by
  obtain ⟨c, hc, ht⟩ := h
  exact ⟨c, hc, by rw [List.getLast?_append, ht, Option.some_or]⟩

theorem BeginsApart.isIdentifierPart (h : BeginsApart t) :
    Text.beginsWith isIdentifierPart t = false := by
  obtain ⟨c, hc, he⟩ := h
  obtain ⟨t, rfl⟩ := List.head?_eq_some_iff.mp he
  exact beginsWith_separator hc

theorem beginsWith_dot (t : Text) : Text.beginsWith isIdentifierPart (Text.ofString "." ++ t) = false := by
  have h : isIdentifierPart '.' = false := by decide +kernel
  exact h

instance (x : Text) (w : List Lexeme) : Decidable (ReadsAs x w) :=
  decidable_of_iff
    ((CodePoint.ofChar '/' ∉ x ∧ CodePoint.ofChar '\\' ∉ x) ∧
      (scan x).unread = [] ∧ (scan x).tokens.map (·.toLexeme) = w)
    ⟨fun h => ⟨h.1.1, h.1.2, h.2.1, h.2.2⟩, fun h => ⟨⟨h.1, h.2⟩, h.3, h.4⟩⟩

/-- The text is scanned as the lexemes, and none of them is quoted. -/
abbrev IsPiece (x : Text) (w : List Lexeme) : Prop :=
  ReadsAs x w ∧ ∀ l ∈ w, l.terminal ∉ [.character, .string]

theorem continuesMark_of_isIdentifierStart {c : CodePoint} (h : isIdentifierStart c = true) :
    continuesMark c = false := by
  simp only [continuesMark, Bool.or_eq_false_iff, beq_eq_false_iff_ne]
  refine ⟨⟨⟨⟨⟨⟨?_, ?_⟩, ?_⟩, ?_⟩, ?_⟩, ?_⟩, isAsciiDigit_of_isIdentifierStart h⟩ <;>
    exact ne_of_isIdentifierStart h (by decide +kernel)

namespace Worded

theorem before (hx : Worded i x w) (h : BeginsApart t) (ht : Worded i t w') :
    Worded i (x ++ t) (w ++ w') := by
  obtain ⟨c, hc, he⟩ := h
  obtain ⟨t, rfl⟩ := List.head?_eq_some_iff.mp he
  exact hx.append hc ht

theorem after (hx : Worded i x w) (h : EndsApart x) (ht : Worded i t w') :
    Worded i (x ++ t) (w ++ w') := by
  obtain ⟨c, hc, he⟩ := h
  exact ⟨hx.spelled.append_of_getLast? he hx.slashless hc ht.spelled,
    List.forall_mem_append.mpr ⟨hx.clean, ht.clean⟩⟩

theorem spaces (hx : x.all isSpace = true) (h : Worded i t w) : Worded i (x ++ t) w :=
  ⟨h.spelled.spaces hx, h.clean⟩

theorem spacesAfter (h : Worded i x w) (ht : t.all isSpace = true) : Worded i (x ++ t) w := by
  have hs : Worded i t [] := by simpa using Worded.spaces ht .nil
  cases t with
  | nil => rwa [List.append_nil]
  | cons c t =>
    rw [List.all_cons, Bool.and_eq_true] at ht
    simpa using h.append (mem_separators_of_isSpace ht.1) hs

theorem dot (hx : IsIdentifier x) (h : Text.beginsWith isIdentifierPart t = false)
    (ht : Worded i t w) :
    Worded i (Text.ofString "." ++ (x ++ t)) (markLexeme .dot :: nameLexeme x :: w) := by
  obtain ⟨c, y, rfl, hc⟩ := Text.beginsWith_iff.mp (isIdentifier_iff.mp hx).1.1
  exact .lexeme (.mark (.intro .dot (continuesMark_of_isIdentifierStart hc)))
    (clean_mark (by decide)) (ht.name hx h)

theorem of_scan (h : IsPiece x w) : Worded i x w := h.1.worded h.2

end Worded

/-- A text that is scanned to see what it is. -/
structure Fixed where
  text : Text
  lexemes : List Lexeme
  isPiece : IsPiece text lexemes

namespace Fixed

def leftParenthesis : Fixed := ⟨"(", [markLexeme .leftParenthesis], by decide +kernel⟩

/-- What comes between something in parentheses and what it is about. -/
def rightParenthesis : Fixed := ⟨") ", [markLexeme .rightParenthesis], by decide +kernel⟩

def leftBrace : Fixed := ⟨"\x7b", [markLexeme .leftBrace], by decide +kernel⟩

def rightBrace : Fixed := ⟨"\x7d", [markLexeme .rightBrace], by decide +kernel⟩

def space : Fixed := ⟨" ", [], by decide +kernel⟩

def semicolon : Fixed := ⟨";", [markLexeme .semicolon], by decide +kernel⟩

def colon : Fixed := ⟨" : ", [markLexeme .colon], by decide +kernel⟩

def equal : Fixed := ⟨" = ", [markLexeme .equal], by decide +kernel⟩

def equalNull : Fixed :=
  ⟨" == null", [markLexeme .equalEqual, keywordLexeme .null], by decide +kernel⟩

def ifNull : Fixed :=
  ⟨" == null ? ", [markLexeme .equalEqual, keywordLexeme .null, markLexeme .question],
    by decide +kernel⟩

def null : Fixed := ⟨"null", [keywordLexeme .null], by decide +kernel⟩

def true_ : Fixed := ⟨"true", [keywordLexeme .true_], by decide +kernel⟩

def voidClass : Fixed :=
  ⟨"void.class", [keywordLexeme .void, markLexeme .dot, keywordLexeme .class_], by decide +kernel⟩

def forName : Fixed :=
  ⟨"java.lang.Class.forName",
    [nameLexeme "java", markLexeme .dot, nameLexeme "lang", markLexeme .dot, nameLexeme "Class",
     markLexeme .dot, nameLexeme "forName"], by decide +kernel⟩

def new : Fixed := ⟨"new ", [keywordLexeme .new], by decide +kernel⟩

def return_ : Fixed := ⟨"return ", [keywordLexeme .return_], by decide +kernel⟩

def throw : Fixed := ⟨"throw ", [keywordLexeme .throw_], by decide +kernel⟩

def try_ : Fixed := ⟨"try ", [keywordLexeme .try_], by decide +kernel⟩

def if_ : Fixed :=
  ⟨"if (", [keywordLexeme .if_, markLexeme .leftParenthesis], by decide +kernel⟩

def while_ : Fixed :=
  ⟨"while (", [keywordLexeme .while_, markLexeme .leftParenthesis], by decide +kernel⟩

def catch_ : Fixed :=
  ⟨"catch (", [keywordLexeme .catch_, markLexeme .leftParenthesis], by decide +kernel⟩

theorem worded (f : Fixed) : Worded i f.text f.lexemes := .of_scan f.isPiece

theorem opening (f : Fixed) (h : EndsApart f.text) (ht : Worded i t w) :
    Worded i (f.text ++ t) (f.lexemes ++ w) := f.worded.after h ht

theorem closing (f : Fixed) (h : BeginsApart f.text) (ht : Worded i t w) :
    Worded i (t ++ f.text) (w ++ f.lexemes) := ht.before h f.worded

theorem glue (f : Fixed) (h : BeginsApart f.text ∧ EndsApart f.text) (hx : Worded i x u)
    (ht : Worded i t w) : Worded i (x ++ (f.text ++ t)) (u ++ (f.lexemes ++ w)) :=
  hx.before (h.1.append t) (f.opening h.2 ht)

end Fixed

/-- After a `>`, the lexemes are not a name with the end of a statement after it. -/
def Guarded : List Lexeme → Prop
  | [] => False
  | l :: w => l.terminal ≠ .identifier ∨ ∃ k ∈ w.head?, k.terminal ≠ .mark .semicolon

/-- No `>` stands before a name with the end of a statement after it, whatever comes next. -/
def Unangled : List Lexeme → Prop
  | [] => True
  | l :: w => (l.terminal = .mark .greater → Guarded w) ∧ Unangled w

theorem Guarded.append (h : Guarded u) (w : List Lexeme) : Guarded (u ++ w) := by
  cases u with
  | nil => exact h.elim
  | cons l u =>
    refine h.imp id fun ⟨k, hk, hne⟩ => ⟨k, ?_, hne⟩
    change k ∈ (u ++ w).head?
    rw [List.head?_append, Option.mem_def.mp hk]
    rfl

namespace Unangled

theorem append (hu : Unangled u) (hw : Unangled w) : Unangled (u ++ w) := by
  induction u with
  | nil => exact hw
  | cons l u ih => exact ⟨fun hl => (hu.1 hl).append w, ih hu.2⟩

theorem of_forall_ne (h : ∀ l ∈ w, l.terminal ≠ .mark .greater) : Unangled w := by
  induction w with
  | nil => trivial
  | cons l w ih =>
    rw [List.forall_mem_cons] at h
    exact ⟨fun hl => absurd hl h.1, ih h.2⟩

/-- Lexemes within a statement can be followed by what a `>` can be followed by. -/
theorem append_of_guarded (hw : ∀ l ∈ w, l.terminal ≠ .mark .semicolon) (hg : Guarded u)
    (hs : ∀ l ∈ u.head?, l.terminal ≠ .mark .semicolon) (hu : Unangled u) : Unangled (w ++ u) := by
  induction w with
  | nil => exact hu
  | cons l w ih =>
    rw [List.forall_mem_cons] at hw
    refine ⟨fun _ => ?_, ih hw.2⟩
    match w, hw.2 with
    | [], _ => exact hg
    | [k], _ =>
      obtain ⟨m, u, rfl⟩ := List.exists_cons_of_ne_nil (l := u) (by rintro rfl; exact hg)
      exact .inr ⟨m, rfl, hs m rfl⟩
    | k :: m :: w, hw => exact .inr ⟨m, rfl, hw m (by simp)⟩

theorem angleFree (h : Unangled w) : Nonterminal.AngleFree w := by
  rintro v p t rfl - ⟨q, a, q', b, n, z, r, -, -, rfl⟩
  have hg : ∀ v : List Lexeme, Unangled (v ++ ⟨.mark .greater, b⟩ :: ⟨.identifier, n⟩ ::
      ⟨.mark .semicolon, z⟩ :: r) → False := by
    intro v hv
    induction v with
    | nil => exact (hv.1 rfl).elim (· rfl) fun ⟨k, hk, hne⟩ => hne (Option.mem_some.mp hk ▸ rfl)
    | cons l v ih => exact ih hv.2
  exact hg (v ++ p :: (q ++ ⟨.mark .less, a⟩ :: q')) (by simpa using h)

end Unangled

/-- The text is read as the nonterminal with the value, in indented texts too if `i` holds. -/
def Phrase (i : Bool) (n : Nonterminal) (x : Text) (v : n.Value) : Prop :=
  ∃ w, Worded i x w ∧ n.Derives w v ∧ Unangled w

/-- The text is read as the nonterminal with the value, and no statement ends in it. -/
def Clause (i : Bool) (n : Nonterminal) (x : Text) (v : n.Value) : Prop :=
  ∃ w, Worded i x w ∧ n.Derives w v ∧ ∀ l ∈ w, l.terminal ≠ .mark .semicolon

namespace Phrase
variable {n : Nonterminal} {v : n.Value} {vs : List n.Value}

theorem congr (h : Phrase i n x v) (he : x = y) : Phrase i n y v := he ▸ h

theorem spaces (hx : x.all isSpace = true) (h : Phrase i n t v) : Phrase i n (x ++ t) v := by
  obtain ⟨w, ht, hd, ha⟩ := h
  exact ⟨w, ht.spaces hx, hd, ha⟩

theorem spacesAfter (hx : x.all isSpace = true) (h : Phrase i n t v) : Phrase i n (t ++ x) v := by
  obtain ⟨w, ht, hd, ha⟩ := h
  exact ⟨w, ht.spacesAfter hx, hd, ha⟩

theorem nil : Phrase i (.many n) [] [] := ⟨[], .nil, .nil, trivial⟩

theorem cons (hx : Phrase i n x v) (ht : BeginsApart t) (h : Phrase i (.many n) t vs) :
    Phrase i (.many n) (x ++ t) (v :: vs) := by
  obtain ⟨u, hu, hdu, hau⟩ := hx
  obtain ⟨w, hw, hdw, haw⟩ := h
  exact ⟨u ++ w, hu.before ht hw, .cons hdu hdw, hau.append haw⟩

theorem singleton (hx : Phrase i n x v) : Phrase i (.many n) x [v] := by
  obtain ⟨u, hu, hdu, hau⟩ := hx
  exact ⟨u ++ [], by rwa [List.append_nil], .cons hdu .nil, hau.append trivial⟩

theorem append (hx : Phrase i (.many n) x vs) (ht : BeginsApart t) {vs' : List n.Value}
    (h : Phrase i (.many n) t vs') : Phrase i (.many n) (x ++ t) (vs ++ vs') := by
  obtain ⟨u, hu, hdu, hau⟩ := hx
  obtain ⟨w, hw, hdw, haw⟩ := h
  refine ⟨u ++ w, hu.before ht hw, ?_, hau.append haw⟩
  clear hu hau
  induction vs generalizing u with
  | nil =>
    obtain rfl := Nonterminal.derives_many_nil.mp hdu
    exact hdw
  | cons v vs ih =>
    obtain ⟨u, u', rfl, hv, hvs⟩ := Nonterminal.derives_many_cons.mp hdu
    rw [List.append_assoc]
    exact .cons hv (ih u' hvs)

theorem lines {xs : List Text} (h : List.Forall₂ (Phrase i n) xs vs) :
    Phrase i (.many n) (xs.flatMap (Text.ofString "\n" ++ ·)) vs := by
  induction h with
  | nil => exact nil
  | @cons x v xs vs hx _ ih =>
    rw [List.flatMap_cons, List.append_assoc]
    refine .spaces rfl ?_
    cases xs with
    | nil =>
      cases vs with
      | nil => simpa using hx.singleton
      | cons => cases ‹List.Forall₂ _ [] _›
    | cons y xs =>
      refine hx.cons ?_ ih
      rw [List.flatMap_cons, List.append_assoc]
      exact .append (by decide) _

end Phrase

open Nonterminal

theorem AllClean.boundless {tokens : List Token} (h : AllClean true (tokens.map (·.toLexeme))) :
    Boundless tokens :=
  fun _ hm _ => (h _ (List.mem_map_of_mem hm)).boundless rfl

/-- A text that is a method by its words is parsed as that method. -/
theorem Phrase.parse_eq {m : MethodDeclaration} (h : Phrase i method t m) : parse t = .ok m := by
  obtain ⟨w, hw, hd, ha⟩ := h
  obtain ⟨tokens, hs, ht⟩ := hw.spelled.exists_scans .start
  have hunescape : unescape t = t := hw.balanced.unescape_eq
  obtain ⟨m', hm⟩ := exists_parse (by rwa [hunescape]) (ht ▸ hd)
  obtain ⟨tokens', hs', hd'⟩ := derives_of_parse hm
  rw [hunescape] at hs'
  obtain rfl : tokens' = tokens := congrArg Scan.tokens (hs'.from_eq.symm.trans hs.from_eq)
  rw [ht] at hd'
  rw [hm, method_unique hd hd' ha.angleFree]

/-- Margins do not matter to it. -/
theorem Phrase.parse_of_padded {m : MethodDeclaration} {t' : Text} (h : Phrase true method t m)
    (hp : Text.Padded isMargin false t t') : parse t' = .ok m := by
  have hm := h.parse_eq
  obtain ⟨w, hw, -, -⟩ := h
  obtain ⟨tokens, hs, ht⟩ := hw.spelled.exists_scans .start
  have hscan : (scan (unescape t)).tokens = tokens := by
    rw [hw.balanced.unescape_eq, scan_eq_iff.mpr hs]
  have hb : Boundless (scan (unescape t)).tokens := hscan ▸ AllClean.boundless (ht ▸ hw.clean)
  have he := parse_padded hp hb
  rw [hm] at he
  cases hm' : parse t' with
  | error e =>
    rw [hm'] at he
    cases he
  | ok m' =>
    rw [hm'] at he
    cases he
    rfl

/-- Headers hold no terminals that none of their parts holds. -/
theorem avoids_of_header {ks : List Terminal} {m : MethodDeclaration} (h : IsHeader w m)
    (htable : ∀ n ∈ headerPlaces, ∀ a ∈ n.alternatives, a.symbols.all (isWithin headerPlaces ks))
    (hname : Terminal.identifier ∉ ks) : ∀ l ∈ w, l.terminal ∉ ks := by
  have hpart : ∀ {n : Nonterminal} {w v}, n.Derives w v → n ∈ headerPlaces →
      ∀ l ∈ w, l.terminal ∉ ks := avoids_of_derives headerPlaces htable
  simp only [IsHeader, Grammar.readsBy_node, Grammar.readsBy_take, Grammar.readsBy_last] at h
  obtain ⟨_, _, _, rfl, hmodifiers, _, _, _, rfl, htypes, _, _, _, rfl, hresult, _, _, rfl, _,
    hformals, -⟩ := h
  simp only [List.forall_mem_append, List.forall_mem_cons]
  exact ⟨hpart hmodifiers (by decide), hpart htypes (by decide), hpart hresult (by decide),
    hname, hpart hformals (by decide)⟩

theorem method_of_header {m : MethodDeclaration} {b : Block} (hu : IsHeader u m)
    (hw : block.Derives w b) : method.Derives (u ++ w) { m with body := some b } := by
  simp only [IsHeader, Grammar.readsBy_node, Grammar.readsBy_take, Grammar.readsBy_last] at hu
  obtain ⟨_, _, _, rfl, hmodifiers, _, _, _, rfl, htypes, _, _, _, rfl, hresult, _, _, rfl, _,
    hformals, rfl⟩ := hu
  have hbody : methodBody.Derives w (some b) := .intro (.head _) (.last hw rfl)
  simp only [List.append_assoc, List.cons_append]
  exact .intro (.head _) (.node hmodifiers (.node htypes (.node hresult (.take (.node hformals
    (.node (u := []) (derives_opt_none.mpr rfl) (.last hbody rfl)))))))

theorem Phrase.method {m : MethodDeclaration} {b : Block} {s : Text} (hx : Worded i x u)
    (hu : IsHeader u m) (hs : s.all isSpace = true ∧ BeginsApart s) (hy : Phrase i .block y b) :
    Phrase i .method (x ++ (s ++ y)) { m with body := some b } := by
  obtain ⟨w, hw, hd, ha⟩ := hy
  obtain ⟨l, t, rfl, hl⟩ := firstTable.exists_cons_of_is hd.is rfl
  obtain ⟨k, z⟩ := l
  obtain rfl : k = .mark .leftBrace := List.mem_singleton.mp hl
  have hsemicolon : ∀ l ∈ u, l.terminal ∉ [Terminal.mark .semicolon] :=
    avoids_of_header hu (by decide +kernel) (by decide)
  exact ⟨_, hx.before (hs.2.append y) (hw.spaces hs.1), method_of_header hu hd,
    .append_of_guarded (fun l hl he => hsemicolon l hl (List.mem_singleton.mpr he))
      (.inl (by simp)) (by simp) ha⟩

theorem clause_of_readsAs {n : Nonterminal} {v : n.Value} (h : ReadsAs x w) (hd : n.Derives w v)
    (hn : n ∈ partsOfTypes ++ typeArgumentParts) : Clause i n x v :=
  ⟨w, h.worded (unquoted_of_derives hd hn), hd, fun l hl he =>
    avoids_of_type hd hn l hl (by simp [he])⟩

theorem Clause.reference {c : ClassType} (h : Clause i classType x c) :
    Clause i type x (.reference c 0) := by
  obtain ⟨w, hw, hd, hs⟩ := h
  refine ⟨w, hw, ?_, hs⟩
  rw [← List.append_nil w]
  exact .intro (.tail _ (.head _)) (.node hd (.last (derives_dimensions_zero.mpr rfl) rfl))

theorem classTypePart_of_name (x : Text) : classTypePart.Derives [nameLexeme x] (x, []) :=
  .intro (.head _) (.take (.last (derives_opt_none.mpr rfl) rfl))

theorem classTypePart_any (x : Text) :
    classTypePart.Derives
      [nameLexeme x, markLexeme .less, markLexeme .question, markLexeme .greater] (x, [.any]) := by
  have hany : typeArgument.Derives [markLexeme .question] .any :=
    .intro (.tail _ (.head _)) (.skip (.nil _))
  have harguments : typeArguments.Derives
      [markLexeme .less, markLexeme .question, markLexeme .greater] [.any] :=
    .intro (.head _) (.skip (.node (u := [markLexeme .question]) hany
      (.node (u := []) Derives.nil (.skip (.nil _)))))
  exact .intro (.head _) (.take (.last (derives_opt_some.mpr harguments) rfl))

theorem classType_of_parts {us : List (List Lexeme)} {v : Text × List TypeArgument}
    {vs : List (Text × List TypeArgument)} (hu : classTypePart.Derives u v)
    (h : List.Forall₂ classTypePart.Derives us vs) :
    classType.Derives (u ++ us.flatMap (markLexeme .dot :: ·)) (.ofParts (v :: vs)) :=
  .intro (.head _) (.node hu (.last (derives_separated .dot h) rfl))

def dotted : List Text → List Lexeme
  | [] => []
  | x :: xs => nameLexeme x :: xs.flatMap fun y => [markLexeme .dot, nameLexeme y]

theorem ofParts_cons_names (x : Text) (xs : List Text) (as : List TypeArgument) :
    ClassType.ofParts ((x, as) :: xs.map fun y => (y, [])) = .mk (Text.join "." (x :: xs)) as := by
  have hfold : ∀ found : List TypeArgument, xs.foldl (fun found _ => found) found = found := by
    intro found
    induction xs with
    | nil => rfl
    | cons x xs ih => exact ih
  cases as <;> simp [ClassType.ofParts, List.map_map, List.foldl_map, Function.comp_def, hfold]

theorem classType_of_names (xs : List Text) (hne : xs ≠ []) :
    classType.Derives (dotted xs) (.mk (Text.join "." xs) []) := by
  obtain ⟨x, xs, rfl⟩ := List.exists_cons_of_ne_nil hne
  have hparts : List.Forall₂ classTypePart.Derives (xs.map ([nameLexeme ·]))
      (xs.map fun x => (x, [])) :=
    List.forall₂_map_left_iff.mpr (List.forall₂_map_right_iff.mpr
      (List.forall₂_same.mpr fun x _ => classTypePart_of_name x))
  have htype := classType_of_parts (classTypePart_of_name x) hparts
  rw [List.flatMap_map, ofParts_cons_names] at htype
  exact htype

theorem classType_of_name (x : Text) : classType.Derives [nameLexeme x] (.mk x []) := by
  have hd := classType_of_names [x] (by simp)
  rwa [Text.join_singleton] at hd

theorem type_of_name (x : Text) : type.Derives [nameLexeme x] (.reference (.mk x []) 0) :=
  .intro (.tail _ (.head _)) (.node (u := [nameLexeme x]) (classType_of_name x)
    (.last (derives_dimensions_zero.mpr rfl) rfl))

/-- A class that goes by the names between the dots. -/
theorem clause_of_names (h : ReadsAs x (dotted (x.splitOn '.'))) :
    Clause i classType x (.mk x []) := by
  have hjoin : Text.join "." (x.splitOn '.') = x := List.intercalate_splitOn _
  have hd := classType_of_names _ (List.splitOn_ne_nil (CodePoint.ofChar '.') x)
  rw [hjoin] at hd
  exact clause_of_readsAs h hd (by decide)

end MemberAccess.Java
