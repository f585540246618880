import MemberAccess.Proofs.Accessor.Header
import MemberAccess.Proofs.Accessor.Indentation
import MemberAccess.Proofs.Accessor.Tree

/-!
# Accessor methods are read back

The text of an accessor method is the method that it was assembled for.
-/

namespace MemberAccess.Accessor

open Java Java.Nonterminal

/-- A parameter whose type is a class with a name of one part. -/
theorem Declares.of_name {x name : Text} (binaryName : Text) (hx : ReadsAs x [nameLexeme x])
    (hname : IsIdentifier name) :
    Declares ⟨x, name, binaryName⟩ ⟨[], .reference (.mk x []) 0, false, name⟩ :=
  ⟨hname, rfl, rfl, [nameLexeme x], [], hx, type_of_name x, derives_flag.mpr (.inr ⟨rfl, rfl⟩)⟩

namespace Spec

variable {spec : Spec} {style : Style} {result : ResultType} {formals : List FormalParameter}
  {unchecked : ClassType}

def methodTree (spec : Spec) (result : ResultType) (formals : List FormalParameter)
    (unchecked : ClassType) : MethodDeclaration where
  modifiers := (keywords spec.isStatic).map .keyword
  typeParameters := []
  result := result
  name := spec.name
  parameters := formals
  throws := []
  body := some (spec.bodyTree result unchecked)
  context := none

/-- Names are identifiers, types are types, quoted names have one line, there is a value for a write,
and lines are indented with white space. -/
structure IsRegular (spec : Spec) (style : Style) (result : ResultType)
    (formals : List FormalParameter) (unchecked : ClassType) : Prop where
  isIdentifier : IsIdentifier spec.name
  returns : Returns spec.returnType result
  declares : List.Forall₂ Declares spec.parameters formals
  isChecked : spec.target.check spec.parameters = .ok ()
  targetNames : ∀ x ∈ spec.target.names, IsOneLine x
  binaryNames : ∀ p ∈ spec.parameters, IsOneLine p.binaryName
  indent : style.indent.all isMargin = true
  throws : ∃ w, ReadsAs style.uncheckedException w ∧ classType.Derives w unchecked

namespace IsRegular

theorem isDeclared (h : spec.IsRegular style result formals unchecked) :
    IsDeclared spec.name spec.returnType spec.parameters result formals := by
  refine ⟨h.isIdentifier, ?_, h.declares⟩
  have hreturns := h.returns
  cases result with
  | void =>
    rw [show spec.returnType = _ from hreturns]
    exact ⟨[keywordLexeme .void], by decide +kernel, .intro (.tail _ (.head _)) (.skip (.nil _))⟩
  | type t =>
    obtain ⟨w, hr, hd⟩ := hreturns
    exact ⟨w, hr, .intro (.head _) (.last hd rfl)⟩

theorem isWritable (h : spec.IsRegular style result formals unchecked) : spec.IsWritable result where
  returns := h.returns
  names := by
    have hnames : ∀ {ps fs}, List.Forall₂ Declares ps fs → ∀ p ∈ ps, IsIdentifier p.name := by
      intro ps fs hd
      induction hd with
      | nil => simp
      | cons hp _ ih => exact List.forall_mem_cons.mpr ⟨hp.isIdentifier, ih⟩
    exact hnames h.declares
  isChecked := h.isChecked
  targetNames := h.targetNames
  binaryNames := h.binaryNames

end IsRegular

theorem phrase_assemble (h : spec.IsRegular style result formals unchecked) :
    Phrase true method (spec.assemble ⟨[], style.uncheckedException⟩)
      (spec.methodTree result formals unchecked) := by
  obtain ⟨w, hw, hheader⟩ := exists_header h.isDeclared
  obtain ⟨v, hr, hd⟩ := h.throws
  have hbody := phrase_body (i := true) h.isWritable (clause_of_readsAs hr hd (by decide))
  have hmethod := Phrase.method hw hheader (s := " ") (by decide) hbody
  refine (hmethod.spacesAfter (x := "\n") (by decide)).congr ?_
  simp [assemble, Text.indent_nil, Text.ofString]

/-- An accessor method whose names are identifiers and whose types are types is read back as it was
meant, however it is indented. -/
theorem parse_assemble (h : spec.IsRegular style result formals unchecked) :
    parse (spec.assemble style) = .ok (spec.methodTree result formals unchecked) :=
  (phrase_assemble h).parse_of_padded (padded_assemble spec style.uncheckedException h.indent)

theorem parse_assemble_static :
    let spec : Spec := ⟨"call", true, "int", [⟨"C", "c", "C"⟩, ⟨"int...", "xs", "int..."⟩],
      .method "C" "m\"n"⟩
    let style : Style := ⟨"\t", "E"⟩
    let formals : List FormalParameter :=
      [⟨[], .reference (.mk "C" []) 0, false, "c"⟩, ⟨[], .primitive .int 0, true, "xs"⟩]
    let result : ResultType := .type (.primitive .int 0)
    spec.IsRegular style result formals (.mk "E" []) ∧
      parse (spec.assemble style) = .ok (spec.methodTree result formals (.mk "E" [])) := by
  intro spec style formals result
  have hint : type.Derives [keywordLexeme (.primitive .int)] (.primitive .int 0) :=
    .intro (.head _) (.node (u := [keywordLexeme (.primitive .int)])
      (.intro (List.mem_map.mpr ⟨.int, by decide, rfl⟩) (.skip (.nil _)))
      (.last (derives_dimensions_zero.mpr rfl) rfl))
  have hclass : ∀ x : Text, classType.Derives [nameLexeme x] (.mk x []) := fun x => by
    have hd := classType_of_names [x] (by simp)
    rwa [Text.join_singleton] at hd
  have hreference : type.Derives [nameLexeme "C"] (.reference (.mk "C" []) 0) :=
    .intro (.tail _ (.head _)) (.node (u := [nameLexeme "C"]) (hclass "C")
      (.last (derives_dimensions_zero.mpr rfl) rfl))
  have hfirst : Declares ⟨"C", "c", "C"⟩ ⟨[], .reference (.mk "C" []) 0, false, "c"⟩ :=
    ⟨by decide +kernel, rfl, rfl, [nameLexeme "C"], [], by decide +kernel, hreference,
      derives_flag.mpr (.inr ⟨rfl, rfl⟩)⟩
  have hsecond : Declares ⟨"int...", "xs", "int..."⟩ ⟨[], .primitive .int 0, true, "xs"⟩ :=
    ⟨by decide +kernel, rfl, rfl, [keywordLexeme (.primitive .int)], [markLexeme .ellipsis],
      by decide +kernel, hint, derives_flag.mpr (.inl ⟨⟨_, rfl⟩, rfl⟩)⟩
  have h : spec.IsRegular style result formals (.mk "E" []) :=
    { isIdentifier := by decide +kernel
      returns := ⟨_, by decide +kernel, hint⟩
      declares := .cons hfirst (.cons hsecond .nil)
      isChecked := rfl
      targetNames := by decide
      binaryNames := by decide
      indent := rfl
      throws := ⟨[nameLexeme "E"], by decide +kernel, hclass "E"⟩ }
  exact ⟨h, parse_assemble h⟩

end Spec

end MemberAccess.Accessor
