import MemberAccess.Java.Escape

/-!
# Texts and their escapes

Every text is what some text with escapes stands for. A text whose backslashes come with the
character after them has no escapes.
-/

namespace MemberAccess.Java

namespace Escape

/-- A character with its escape in place of a backslash. -/
def escapedChar (c : CodePoint) : Text := if c = '\\' then "\\u005c" else [c]

def escaped (t : Text) : Text := t.flatMap escapedChar

theorem replaceFrom_of_ne {c : CodePoint} (hc : c ≠ '\\') (isOdd : Bool) (t : Text) :
    replaceFrom 0 isOdd (c :: t) = c :: replaceFrom 0 false t := by
  rw [replaceFrom]
  simp [hc]

theorem replaceFrom_escapedChar (c : CodePoint) (t : Text) :
    replaceFrom 0 false (escapedChar c ++ t) = c :: replaceFrom 0 false t := by
  by_cases hc : c = '\\'
  · subst hc
    rfl
  · rw [escapedChar, if_neg hc]
    exact replaceFrom_of_ne hc false t

end Escape

theorem unescape_escaped (t : Text) : unescape (Escape.escaped t) = t := by
  unfold unescape
  induction t with
  | nil => rfl
  | cons c t ih =>
    rw [Escape.escaped, List.flatMap_cons, Escape.replaceFrom_escapedChar]
    exact congrArg _ ih

/-- Each backslash is followed by a character that goes with it and cannot begin an escape. -/
inductive Balanced : Text → Prop where
  | nil : Balanced []
  | plain {c : CodePoint} {t : Text} : c ≠ '\\' → Balanced t → Balanced (c :: t)
  | pair {c : CodePoint} {t : Text} : c ≠ 'u' → Balanced t → Balanced ('\\' :: c :: t)

namespace Balanced

theorem append {t t' : Text} (h : Balanced t) (h' : Balanced t') : Balanced (t ++ t') := by
  induction h with
  | nil => exact h'
  | plain hc _ ih => exact .plain hc ih
  | pair hc _ ih => exact .pair hc ih

theorem of_forall_ne {t : Text} (h : ∀ c ∈ t, c ≠ '\\') : Balanced t := by
  induction t with
  | nil => exact .nil
  | cons c t ih =>
    exact .plain (h c List.mem_cons_self) (ih fun d hd => h d (List.mem_cons_of_mem _ hd))

/-- Escapes after a balanced text are replaced without regard to it. -/
theorem unescape_append {t : Text} (h : Balanced t) (t' : Text) :
    unescape (t ++ t') = t ++ unescape t' := by
  unfold unescape
  induction h with
  | nil => rfl
  | plain hc _ ih => rw [List.cons_append, Escape.replaceFrom_of_ne hc, ih, List.cons_append]
  | @pair c t hc _ ih =>
    have hb : Escape.body? (c :: (t ++ t')) = none := by
      have hm : Escape.isMarker c = false := by simpa [Escape.isMarker] using hc
      simp [Escape.body?, hm]
    rw [List.cons_append, List.cons_append, Escape.replaceFrom]
    simp only [hb, if_true, Bool.false_eq_true, if_false]
    rw [Escape.replaceFrom]
    by_cases hc : c = '\\'
    · simp [hc, ih]
    · simp [hc, ih]

theorem unescape_eq {t : Text} (h : Balanced t) : unescape t = t := by
  have := h.unescape_append []
  rwa [List.append_nil, show unescape [] = [] from rfl, List.append_nil] at this

end Balanced

end MemberAccess.Java
