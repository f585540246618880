import MemberAccess.Accessor.Spec
import MemberAccess.Proofs.Java.Padding
import MemberAccess.Proofs.Text.Join

/-!
# Indentation is layout

Accessor methods that are indented differently are the same methods, or are none alike. The one
exception is a name with a line boundary: the margin after it becomes a part of the literal in which
the name is quoted.
-/

namespace MemberAccess.Accessor

open Java Text

variable {margin : Text}

namespace Spec

/-- Indenting the code inside of a body pads the body. -/
theorem padded_body (spec : Spec) (uncheckedException : Text) (hm : margin.all isMargin = true) :
    Padded isMargin true (spec.body ⟨[], uncheckedException⟩)
      (spec.body ⟨margin, uncheckedException⟩) := by
  have hjoin : ∀ x : Text, ∀ style : Style,
      Text.join "\n" (([("try \x7b" : Text), x, "\x7d"] : List Text) ++
        spec.target.exceptions.map (style.catchBlock (LocalNames.of spec.parameters).error)) =
      "try \x7b" ++ (CodePoint.ofChar '\n' :: (x ++ "\n" ++ Text.join "\n" ("\x7d" ::
        spec.target.exceptions.map (style.catchBlock (LocalNames.of spec.parameters).error)))) := by
    intro x style
    rw [List.cons_append, List.cons_append, Text.join_cons_cons, List.singleton_append, Text.join_cons_cons]
    simp [ofString]
  rw [body, body, hjoin, hjoin, indent_nil]
  refine .append_left (b := true) "try \x7b" (.keep (.append_right (.append_right ?_ _) _))
  exact padded_indent hm spec.accessCode

/-- Method text with a margin is the text without it, padded. -/
theorem padded_assemble (spec : Spec) (uncheckedException : Text)
    (hm : margin.all isMargin = true) :
    Padded isMargin false (spec.assemble ⟨[], uncheckedException⟩)
      (spec.assemble ⟨margin, uncheckedException⟩) := by
  rw [assemble, assemble, indent_nil]
  refine .append_right ?_ "\n\x7d\n"
  have hb := (padded_body spec uncheckedException hm).trans
    (padded_indent hm (spec.body ⟨margin, uncheckedException⟩))
  have hsplit : ∀ x : Text, spec.header ++ " \x7b\n" ++ x =
      spec.header ++ " \x7b" ++ (CodePoint.ofChar '\n' :: x) := by
    intro x
    simp [ofString]
  rw [hsplit, hsplit]
  exact .append_left _ (.keep hb)

/-- Method texts of a specification that differ in indentation alone are the same method, or neither
is one, unless a literal in the text holds a line boundary. -/
theorem parse_assemble_margin (spec : Spec) (uncheckedException margin margin' : Text)
    (hm : margin.all isMargin = true) (hm' : margin'.all isMargin = true)
    (hb : Boundless (scan (unescape (spec.assemble ⟨[], uncheckedException⟩))).tokens) :
    (parse (spec.assemble ⟨margin, uncheckedException⟩)).toOption =
      (parse (spec.assemble ⟨margin', uncheckedException⟩)).toOption := by
  rw [parse_padded (padded_assemble spec uncheckedException hm) hb,
    parse_padded (padded_assemble spec uncheckedException hm') hb]

theorem parse_assemble_margin_reader :
    let spec : Spec := ⟨"f", false, "int", [⟨"C", "c", "C"⟩], .field .get "C" "x"⟩
    Boundless (scan (unescape (spec.assemble ⟨[], "E"⟩))).tokens ∧
    (parse (spec.assemble ⟨"  ", "E"⟩)).toOption = (parse (spec.assemble ⟨"\t", "E"⟩)).toOption := by
  intro spec
  have hb : Boundless (scan (unescape (spec.assemble ⟨[], "E"⟩))).tokens := by decide +kernel
  exact ⟨hb, parse_assemble_margin spec "E" "  " "\t" rfl rfl hb⟩

/-- A carriage return in the name of a field ends a line, so a margin comes after it. -/
theorem parse_assemble_margin_ne :
    let spec : Spec := ⟨"f", false, "void", [], .field .get "C" "a\rb"⟩
    (parse (spec.assemble ⟨[], "E"⟩)).toOption ≠ (parse (spec.assemble ⟨" ", "E"⟩)).toOption := by
  intro spec h
  -- The margin in the literal makes the second method larger.
  have hsize := congrArg (Option.map sizeOf) h
  revert hsize
  decide +kernel

end Spec

end MemberAccess.Accessor
