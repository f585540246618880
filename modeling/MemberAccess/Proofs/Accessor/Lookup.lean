import MemberAccess.Proofs.Accessor.Nameless
import MemberAccess.Proofs.Java.Quote

/-!
# The code that looks a member up

The call quotes the name of the member and the names of the classes of parameters. If none of them
holds a line feed, then the code is read as what it is meant to be. If one does, then nothing is read
from its quotation mark on.
-/

namespace MemberAccess

open Java Java.Lexer

namespace Java

/-- Whatever comes after it, the text is not read to its end. -/
def IsStuck (x : Text) : Prop := ∀ (r : Text) (p : Position), (Scan.from_ p 0 (x ++ r)).unread ≠ []

/-- The text is stuck, or it is read as lexemes before any separator. -/
def IsReadOrStuck (x : Text) : Prop := IsStuck x ∨ ∃ w, Worded false x w

variable {i : Bool} {x y : Text} {w : List Lexeme} {xs : List Text}

theorem isStuck_quote (h : CodePoint.ofChar '\n' ∈ x) : IsStuck (TypeName.quote x) := by
  intro r p
  have hne : TypeName.quote x ++ r ≠ [] := List.cons_ne_nil (CodePoint.ofChar '"') _
  have hstuck := Scans.stuck (p := p) hne ((TypeName.lexeme?_quote_eq_none_iff x r).mpr h)
  rw [hstuck.from_eq]
  exact hne

namespace IsStuck

theorem append (h : IsStuck x) (y : Text) : IsStuck (x ++ y) := by
  intro r p
  rw [List.append_assoc]
  exact h (y ++ r) p

theorem space {c : CodePoint} (hc : isSpace c = true) (h : IsStuck x) : IsStuck (c :: x) := by
  intro r p
  rw [List.cons_append, ((scans_from (p.step c) (x ++ r)).space hc).from_eq]
  exact h r _

theorem mark {m : Mark} (hm : m ∈ [.leftParenthesis, .rightParenthesis, .comma, .semicolon])
    (h : IsStuck x) : IsStuck (m.text ++ x) := by
  intro r p
  have hs := Scans.token (p := p) (lexeme?_eq_some_iff.mpr (.mark (markBefore_of_mem hm (x ++ r))))
    (scans_from (p.advance m.text) (x ++ r))
  rw [List.append_assoc, hs.from_eq]
  exact h r _

theorem after (h : IsStuck y) (hb : BeginsApart y) (hx : Worded i x w) : IsStuck (x ++ y) := by
  obtain ⟨c, hc, he⟩ := hb
  obtain ⟨z, rfl⟩ := List.head?_eq_some_iff.mp he
  intro r p
  obtain ⟨tokens, hs, -⟩ := hx.spelled.scans_append hx.slashless hc
    (scans_from (p.advance x) (c :: (z ++ r)))
  rw [List.append_assoc, List.cons_append, hs.from_eq]
  exact h r _

theorem elements (h : ∀ y ∈ x :: xs, IsReadOrStuck y) (hs : ∃ y ∈ x :: xs, IsStuck y) :
    IsStuck (x ++ (xs.flatMap (Text.ofString ", " ++ ·) ++ ")")) := by
  induction xs generalizing x with
  | nil =>
    obtain ⟨y, hy, hstuck⟩ := hs
    obtain rfl := List.mem_singleton.mp hy
    exact hstuck.append _
  | cons y xs ih =>
    -- The first element that is stuck is enough, as those before it are read up to their commas.
    by_cases hx : IsStuck x
    · exact hx.append _
    · rw [List.forall_mem_cons] at h
      obtain ⟨w, hw⟩ := h.1.resolve_left hx
      have hrest := ih h.2 (((List.exists_mem_cons_iff ..).mp hs).resolve_left hx)
      have hcomma := (hrest.space (c := ' ') (by decide)).mark (m := .comma) (by decide)
      rw [List.flatMap_cons, List.append_assoc, List.append_assoc]
      exact hcomma.after (.append (by decide) _) hw

theorem arguments (h : ∀ x ∈ xs, IsReadOrStuck x) (hs : ∃ x ∈ xs, IsStuck x) :
    IsStuck ("(" ++ Text.join ", " xs ++ ")") := by
  cases xs with
  | nil => simp at hs
  | cons x xs =>
    have helements := (elements h hs).mark (m := .leftParenthesis) (by decide)
    rw [Text.join_cons, List.append_assoc, List.append_assoc]
    exact helements

theorem not_parse (h : IsStuck x) (hb : Balanced x) : ¬ ∃ m, parse x = .ok m := by
  rintro ⟨m, hm⟩
  obtain ⟨tokens, hs, -⟩ := derives_of_parse hm
  rw [hb.unescape_eq] at hs
  have hunread := h [] .start
  rw [List.append_nil, hs.from_eq] at hunread
  exact hunread rfl

end IsStuck

theorem isReadOrStuck_quote (name : Text) : IsReadOrStuck (TypeName.quote name) := by
  by_cases h : CodePoint.ofChar '\n' ∈ name
  · exact .inl (isStuck_quote h)
  · obtain ⟨w, hw, -⟩ := Phrase.string (.of_noLineFeed h)
    exact .inr ⟨w, hw⟩

end Java

namespace Accessor

theorem isStuck_classExpression {name : Text} (h : CodePoint.ofChar '\n' ∈ TypeName.loadable name) :
    IsStuck (TypeName.classExpression name) := by
  have hname : CodePoint.ofChar '\n' ∈ name :=
    (TypeName.mem_of_mem_loadable h).resolve_right (by decide)
  have hprimitive : TypeName.isPrimitive name = false := by
    have hall : ∀ p ∈ Primitive.all, CodePoint.ofChar '\n' ∉ p.text := by decide
    rw [Bool.eq_false_iff, Ne, TypeName.isPrimitive_iff]
    rintro (⟨p, rfl⟩ | rfl)
    · exact hall p p.mem_all hname
    · exact absurd hname (by decide)
  have hquote := ((isStuck_quote h).append ")").mark (m := .leftParenthesis) (by decide)
  have hcall := hquote.after (.append (by decide) _) (Fixed.forName.worded (i := false))
  rw [TypeName.classExpression, hprimitive]
  exact hcall

theorem isReadOrStuck_classExpression (name : Text) :
    IsReadOrStuck (TypeName.classExpression name) := by
  by_cases h : CodePoint.ofChar '\n' ∈ TypeName.loadable name
  · exact .inl (isStuck_classExpression h)
  · obtain ⟨w, hw, -⟩ := phrase_classObject (.of_noLineFeed h)
    exact .inr ⟨w, hw⟩

theorem isStuck_call {object method : Text} {xs : List Text} (ho : IsIdentifier object)
    (hm : IsIdentifier method) (h : ∀ x ∈ xs, IsReadOrStuck x) (hs : ∃ x ∈ xs, IsStuck x) :
    IsStuck (object ++ "." ++ call method xs) := by
  have hobject : Worded false (object ++ (Text.ofString "." ++ (method ++ []))) _ :=
    .name ho (beginsWith_dot _) (.dot hm rfl .nil)
  have hcall := (IsStuck.arguments h hs).after (Phrase.beginsApart_arguments xs) hobject
  simpa [call] using hcall

namespace Target
variable {target : Target} {parameters : List Parameter}

theorem isStuck_lookup (h : ∃ x ∈ target.quotedNames parameters, CodePoint.ofChar '\n' ∈ x) :
    IsStuck ((LocalNames.of parameters).klass ++ "." ++ target.lookup parameters) := by
  have hklass := LocalNames.isIdentifier_klass parameters
  have hread (ps : List Parameter) :
      ∀ x ∈ ps.map fun p => TypeName.classExpression p.binaryName, IsReadOrStuck x :=
    List.forall_mem_map.mpr fun p _ => isReadOrStuck_classExpression p.binaryName
  have hclass {ps : List Parameter}
      (hps : ∃ x ∈ ps.map fun p => TypeName.loadable p.binaryName, CodePoint.ofChar '\n' ∈ x) :
      ∃ x ∈ ps.map fun p => TypeName.classExpression p.binaryName, IsStuck x := by
    obtain ⟨_, hx, hn⟩ := hps
    obtain ⟨p, hp, rfl⟩ := List.mem_map.mp hx
    exact ⟨_, List.mem_map_of_mem hp, isStuck_classExpression hn⟩
  cases target with
  | field access className fieldName =>
    obtain ⟨x, hx, hn⟩ := h
    obtain rfl := List.mem_singleton.mp hx
    exact isStuck_call hklass (by decide +kernel)
      (List.forall_mem_singleton.mpr (isReadOrStuck_quote _)) ⟨_, .head _, isStuck_quote hn⟩
  | method className methodName =>
    refine isStuck_call hklass (by decide +kernel)
      (List.forall_mem_cons.mpr ⟨isReadOrStuck_quote methodName, hread _⟩)
      ((List.exists_mem_cons_iff ..).mpr ?_)
    exact ((List.exists_mem_cons_iff ..).mp h).imp isStuck_quote hclass
  | constructor className => exact isStuck_call hklass (by decide +kernel) (hread _) (hclass h)

/-- A method of which the body is the code that looks the member up. -/
def lookupMethod (parameters : List Parameter) (target : Target) : Text :=
  "public void f() \x7b\n" ++ target.memberLookup parameters ++ "\n\x7d"

def lookupTree (parameters : List Parameter) (target : Target) : MethodDeclaration where
  modifiers := [.keyword .public_]
  typeParameters := []
  result := .void
  name := "f"
  parameters := []
  throws := []
  body := some (.mk (walk (LocalNames.of parameters) (target.lookupExpr parameters) target.notFound))
  context := none

theorem phrase_lookupTree (h : ∀ x ∈ target.quotedNames parameters, CodePoint.ofChar '\n' ∉ x) :
    Phrase false .method (target.lookupMethod parameters) (target.lookupTree parameters) := by
  have hdeclared : IsDeclared "f" "void" [] .void [] :=
    ⟨by decide +kernel, ⟨[keywordLexeme .void], by decide +kernel,
      .intro (.tail _ (.head _)) (.skip (.nil _))⟩, .nil⟩
  obtain ⟨w, hw, hheader⟩ := @Spec.exists_header false ⟨"f", false, "void", [], target⟩ _ _ hdeclared
  have hwalk := phrase_walk (LocalNames.isIdentifier_klass parameters)
    (LocalNames.isIdentifier_member _) (LocalNames.isIdentifier_error _)
    (phrase_lookup fun x hx => .of_noLineFeed (h x hx)) (Spec.phrase_notFound target)
  have hblock := Phrase.block "\n" "\n" (by decide) (by decide) hwalk
  have hmethod := Phrase.method hw hheader (s := " ") (by decide) hblock
  refine hmethod.congr ?_
  simp [lookupMethod, memberLookup, Spec.header, call, Text.ofString]

theorem balanced_lookupMethod : Balanced (target.lookupMethod parameters) := by
  have hrenamed : Renamed ' ' (target.nameless.lookupMethod (parameters.map Parameter.nameless))
      (target.lookupMethod parameters) :=
    ((Requoted.refl (by decide) ' ').append_apart (by decide)
      fun _ hc => renamed_memberLookup hc).append_any (.refl (by decide))
  have hrequoted : Requoted isMargin IsDisguise ' ' _ _ :=
    hrenamed.mono (fun _ hc => by cases hc) fun _ ⟨name, hq⟩ => hq ▸ isDisguise_quote name
  exact hrequoted.balanced fun _ hq => hq

theorem exists_lookupMethod_eq (parameters : List Parameter) (target : Target) :
    ∃ rest, target.lookupMethod parameters =
      Text.ofString "public void f() \x7b\nwhile (" ++ ((LocalNames.of parameters).member ++
        (Text.ofString " == null) \x7b\n    try \x7b\n        " ++
          ((LocalNames.of parameters).member ++ Text.ofString " ="))) ++
        CodePoint.ofChar ' ' ::
          ((LocalNames.of parameters).klass ++ "." ++ target.lookup parameters) ++ rest := by
  obtain ⟨lines, hlines⟩ : ∃ lines, target.memberLookup parameters = Text.join "\n"
      (("while (" ++ (LocalNames.of parameters).member ++ " == null) \x7b") :: "    try \x7b" ::
        ("        " ++ (LocalNames.of parameters).member ++ " = " ++
          (LocalNames.of parameters).klass ++ "." ++ target.lookup parameters ++ ";") :: lines) :=
    ⟨_, rfl⟩
  refine ⟨";" ++ lines.flatMap (Text.ofString "\n" ++ ·) ++ "\n\x7d", ?_⟩
  rw [lookupMethod, hlines]
  simp [Text.join_cons, Text.ofString]

theorem isStuck_lookupMethod (h : ∃ x ∈ target.quotedNames parameters, CodePoint.ofChar '\n' ∈ x) :
    IsStuck (target.lookupMethod parameters) := by
  have hmember := worded_name (i := false) (LocalNames.isIdentifier_member parameters)
  have hopen : IsPiece "public void f() \x7b\nwhile ("
      ((scan "public void f() \x7b\nwhile (").tokens.map (·.toLexeme)) := by decide +kernel
  have hround : IsPiece " == null) \x7b\n    try \x7b\n        "
      ((scan " == null) \x7b\n    try \x7b\n        ").tokens.map (·.toLexeme)) := by decide +kernel
  have hassign : IsPiece " =" ((scan " =").tokens.map (·.toLexeme)) := by decide +kernel
  have hwithin := (Worded.of_scan hround).after (by decide)
    (hmember.before (by decide) (.of_scan hassign))
  have hbefore := (Worded.of_scan hopen).after (by decide)
    (hmember.before (.append (by decide) _) hwithin)
  have hspace : BeginsApart [CodePoint.ofChar ' '] := by decide
  have hstuck := ((isStuck_lookup h).space (c := ' ') (by decide)).after (hspace.append _) hbefore
  obtain ⟨rest, hrest⟩ := exists_lookupMethod_eq parameters target
  exact hrest ▸ hstuck.append rest

/-- The code is read if and only if nothing that it quotes holds a line feed. -/
theorem parse_lookupMethod (parameters : List Parameter) (target : Target) :
    ((∃ m, parse (target.lookupMethod parameters) = .ok m) ↔
      ∀ x ∈ target.quotedNames parameters, CodePoint.ofChar '\n' ∉ x) ∧
    ∀ m, parse (target.lookupMethod parameters) = .ok m → m = target.lookupTree parameters := by
  have hread : (∃ m, parse (target.lookupMethod parameters) = .ok m) →
      ∀ x ∈ target.quotedNames parameters, CodePoint.ofChar '\n' ∉ x := fun hm x hx hn =>
    (isStuck_lookupMethod ⟨x, hx, hn⟩).not_parse balanced_lookupMethod hm
  refine ⟨⟨hread, fun h => ⟨_, (phrase_lookupTree h).parse_eq⟩⟩, fun m hm => ?_⟩
  have hok := (phrase_lookupTree (hread ⟨m, hm⟩)).parse_eq
  rw [hm] at hok
  exact Except.ok.inj hok

end Target

end Accessor

end MemberAccess
