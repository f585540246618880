import MemberAccess.Text.Lines

/-!
# Lines and columns

The place after a text is told by its line feeds and by what stands after the last of them.
-/

namespace MemberAccess

/-- The line and the column of what comes after the text. -/
def placeAfter (t : Text) : Position where
  line := t.count (CodePoint.ofChar '\n') + 1
  column := (t.reverse.takeWhile fun c : CodePoint => c != '\n').length + 1

theorem foldr_step (t : Text) :
    t.foldr (fun c p => Position.step p c) .start = placeAfter t.reverse := by
  induction t with
  | nil => rfl
  | cons c t ih =>
    rw [List.foldr_cons, ih]
    by_cases hc : c = '\n'
    · simp [placeAfter, Position.step, hc]
    · simp [placeAfter, Position.step, hc]

theorem advance_start (t : Text) : Position.start.advance t = placeAfter t := by
  rw [Position.advance, ← List.foldr_reverse, foldr_step, List.reverse_reverse]

end MemberAccess
