import MemberAccess.Proofs.Java.Erasure

/-!
# Outlines of types

Of a text in which angle brackets match, the outline is what stands outside of them. It is what
erasure leaves if each list in angle brackets is on one line, and no two lists are on the same.
-/

namespace MemberAccess.Java.TypeName

variable {t x r : Text}

/-- What stands outside angle brackets, where `depth` of them are open at the beginning. -/
def outside (depth : Nat) : Text → Text
  | [] => []
  | c :: r =>
    if c = '<' then outside (depth + 1) r
    else if c = '>' then outside (depth - 1) r
    else if depth = 0 then c :: outside 0 r
    else outside depth r

structure Bracketless (t : Text) : Prop where
  less : CodePoint.ofChar '<' ∉ t
  greater : CodePoint.ofChar '>' ∉ t

theorem bracketless_append_iff : Bracketless (x ++ r) ↔ Bracketless x ∧ Bracketless r := by
  constructor
  · rintro ⟨h, h'⟩
    rw [List.mem_append, not_or] at h h'
    exact ⟨⟨h.1, h'.1⟩, h.2, h'.2⟩
  · rintro ⟨⟨h, h'⟩, hr, hr'⟩
    exact ⟨by simp [h, hr], by simp [h', hr']⟩

theorem bracketless_cons_iff {c : CodePoint} :
    Bracketless (c :: x) ↔ (c ≠ '<' ∧ c ≠ '>') ∧ Bracketless x := by
  constructor
  · rintro ⟨h, h'⟩
    rw [List.mem_cons, not_or] at h h'
    exact ⟨⟨Ne.symm h.1, Ne.symm h'.1⟩, h.2, h'.2⟩
  · rintro ⟨⟨h, h'⟩, hx, hx'⟩
    exact ⟨by simp [h.symm, hx], by simp [h'.symm, hx']⟩

/-- Every angle bracket in the text has its match. -/
inductive Matched : Text → Prop where
  | nil : Matched []
  | cons {c : CodePoint} {x : Text} : c ≠ '<' → c ≠ '>' → Matched x → Matched (c :: x)
  | angles {x r : Text} : Matched x → Matched r →
    Matched ('<' :: (x ++ CodePoint.ofChar '>' :: r))

theorem Bracketless.matched (h : Bracketless t) : Matched t := by
  induction t with
  | nil => exact .nil
  | cons c t ih =>
    obtain ⟨⟨hless, hgreater⟩, ht⟩ := bracketless_cons_iff.mp h
    exact .cons hless hgreater (ih ht)

theorem Matched.append (hx : Matched x) (hr : Matched r) : Matched (x ++ r) := by
  induction hx with
  | nil => exact hr
  | cons hless hgreater _ ih => exact .cons hless hgreater ih
  | angles hx _ _ ih =>
    rw [List.cons_append, List.append_assoc]
    exact .angles hx ih

/-- Within brackets all is passed over up to the match of the last one that is open. -/
theorem Matched.outside_append (h : Matched x) (depth : Nat) (r : Text) :
    outside (depth + 1) (x ++ r) = outside (depth + 1) r := by
  induction h generalizing depth r with
  | nil => rfl
  | cons hless hgreater _ ih =>
    rw [List.cons_append, outside, if_neg hless, if_neg hgreater, if_neg (Nat.succ_ne_zero _), ih]
  | angles _ _ ihx ih =>
    rw [List.cons_append, List.append_assoc, outside, if_pos rfl, ihx, List.cons_append, outside,
      if_neg (by decide), if_pos rfl, Nat.add_sub_cancel, ih]

theorem outside_angles (h : Matched x) (r : Text) :
    outside 0 ('<' :: (x ++ CodePoint.ofChar '>' :: r)) = outside 0 r := by
  rw [outside, if_pos rfl, h.outside_append, outside, if_neg (by decide), if_pos rfl]

theorem Bracketless.outside_append (h : Bracketless x) (r : Text) :
    outside 0 (x ++ r) = x ++ outside 0 r := by
  induction x with
  | nil => rfl
  | cons c x ih =>
    obtain ⟨⟨hless, hgreater⟩, hx⟩ := bracketless_cons_iff.mp h
    rw [List.cons_append, outside, if_neg hless, if_neg hgreater, if_pos rfl, ih hx,
      List.cons_append]

/-- A list in angle brackets, with what stands after it and before the next one. -/
structure AngleList where
  inside : Text
  after : Text

def AngleList.text (l : AngleList) : Text := '<' :: (l.inside ++ CodePoint.ofChar '>' :: l.after)

/-- A text with the outermost of its lists in angle brackets. -/
structure Outline where
  first : Text
  lists : List AngleList

namespace Outline

def text (o : Outline) : Text := o.first ++ o.lists.flatMap (·.text)

def outer (o : Outline) : Text := o.first ++ o.lists.flatMap (·.after)

/-- The brackets of the lists match, and two lists have a dot between them. -/
structure IsRegular (o : Outline) : Prop where
  first : Bracketless o.first
  inside : ∀ l ∈ o.lists, Matched l.inside
  after : ∀ l ∈ o.lists, Bracketless l.after
  dot : ∀ l ∈ o.lists.dropLast, CodePoint.ofChar '.' ∈ l.after

/-- No list goes on to another line. -/
def IsInline (o : Outline) : Prop := ∀ l ∈ o.lists, CodePoint.ofChar '\n' ∉ l.inside

/-- Each list is on one line, and no two are on the same. -/
structure OnePerLine (o : Outline) : Prop where
  isInline : o.IsInline
  lineFeed : ∀ l ∈ o.lists.dropLast, CodePoint.ofChar '\n' ∈ l.after

end Outline

/-- What is left of lists that are on one line each: what stands after them, apart from what stands
between two lists on the same line. -/
def keptAfter : List AngleList → Text
  | [] => []
  | [l] => l.after
  | l :: m :: lists =>
    (if CodePoint.ofChar '\n' ∈ l.after then l.after else []) ++ keptAfter (m :: lists)

variable {l : AngleList} {lists : List AngleList} {o : Outline}

theorem outside_lists (hinside : ∀ l ∈ lists, Matched l.inside)
    (hafter : ∀ l ∈ lists, Bracketless l.after) :
    outside 0 (lists.flatMap (·.text)) = lists.flatMap (·.after) := by
  induction lists with
  | nil => rfl
  | cons l lists ih =>
    rw [List.forall_mem_cons] at hinside hafter
    rw [List.flatMap_cons, List.flatMap_cons, AngleList.text, List.cons_append, List.append_assoc,
      List.cons_append, outside_angles hinside.1, hafter.1.outside_append,
      ih hinside.2 hafter.2]

theorem count_lineFeed_lists (lists : List AngleList) :
    (lists.flatMap (·.text)).count (CodePoint.ofChar '\n') =
      (lists.flatMap (·.inside)).count (CodePoint.ofChar '\n') +
        (lists.flatMap (·.after)).count (CodePoint.ofChar '\n') := by
  have htext : ∀ l : AngleList, l.text.count (CodePoint.ofChar '\n') =
      l.inside.count (CodePoint.ofChar '\n') + l.after.count (CodePoint.ofChar '\n') := by
    have hless : (CodePoint.ofChar '<' == '\n') = false := by decide
    have hgreater : (CodePoint.ofChar '>' == '\n') = false := by decide
    simp [AngleList.text, List.count_cons, hless, hgreater]
  induction lists with
  | nil => rfl
  | cons l lists ih =>
    simp only [List.flatMap_cons, List.count_append, ih, htext]
    omega

/-- A stretch that is dropped goes from the first list of a line to the last one. -/
theorem dropArguments_lists (hinside : ∀ m ∈ l :: lists, CodePoint.ofChar '\n' ∉ m.inside)
    (hafter : ∀ m ∈ l :: lists, Bracketless m.after) :
    dropArguments 0 ((l :: lists).flatMap (·.text)) = keptAfter (l :: lists) := by
  induction lists generalizing l with
  | nil =>
    rw [List.forall_mem_singleton] at hinside hafter
    have hline : CodePoint.ofChar '>' ∉ firstLine l.after := fun hm =>
      hafter.greater ((isPrefix_firstLine _).subset hm)
    rw [List.flatMap_cons, List.flatMap_nil, List.append_nil, AngleList.text,
      dropArguments_stretch hinside hline, dropArguments_of_notMem hafter.less, keptAfter]
  | cons m lists ih =>
    rw [List.forall_mem_cons] at hinside hafter
    rw [keptAfter]
    by_cases hfeed : CodePoint.ofChar '\n' ∈ l.after
    · have hline : CodePoint.ofChar '>' ∉ firstLine (l.after ++ (m :: lists).flatMap (·.text)) := by
        rw [firstLine_append_of_mem hfeed]
        exact fun hm => hafter.1.greater ((isPrefix_firstLine _).subset hm)
      have htext : (l :: m :: lists).flatMap (·.text) = CodePoint.ofChar '<' ::
          (l.inside ++ CodePoint.ofChar '>' :: (l.after ++ (m :: lists).flatMap (·.text))) := by
        simp [AngleList.text]
      rw [htext, dropArguments_stretch hinside.1 hline,
        dropArguments_append_of_notMem hafter.1.less, ih hinside.2 hafter.2, if_pos hfeed]
    · -- The two lists and all between them are dropped as if they were one.
      let joined : AngleList :=
        ⟨l.inside ++ CodePoint.ofChar '>' :: (l.after ++ CodePoint.ofChar '<' :: m.inside), m.after⟩
      have htext : (l :: m :: lists).flatMap (·.text) = (joined :: lists).flatMap (·.text) := by
        simp [AngleList.text, joined]
      have hkept : keptAfter (joined :: lists) = keptAfter (m :: lists) := by
        cases lists <;> rfl
      rw [List.forall_mem_cons] at hinside hafter
      have hgreater : CodePoint.ofChar '\n' ≠ '>' := by decide
      have hless : CodePoint.ofChar '\n' ≠ '<' := by decide
      have hjoined : CodePoint.ofChar '\n' ∉ joined.inside := by
        simp [joined, hinside.1, hinside.2.1, hfeed, hgreater, hless]
      rw [htext, ih (List.forall_mem_cons.mpr ⟨hjoined, hinside.2.2⟩)
        (List.forall_mem_cons.mpr ⟨hafter.2.1, hafter.2.2⟩), hkept, if_neg hfeed, List.nil_append]

theorem keptAfter_eq_flatMap (h : ∀ l ∈ lists.dropLast, CodePoint.ofChar '\n' ∈ l.after) :
    keptAfter lists = lists.flatMap (·.after) := by
  fun_induction keptAfter lists with
  | case1 => rfl
  | case2 l => simp
  | case3 l m lists ih =>
    rw [List.dropLast_cons_cons, List.forall_mem_cons] at h
    rw [if_pos h.1, ih h.2]
    exact List.flatMap_cons.symm

theorem count_dot_keptAfter_le (lists : List AngleList) :
    (keptAfter lists).count (CodePoint.ofChar '.') ≤
      (lists.flatMap (·.after)).count (CodePoint.ofChar '.') := by
  fun_induction keptAfter lists with
  | case1 => exact Nat.le_refl _
  | case2 l => simp
  | case3 l m lists ih =>
    rw [List.flatMap_cons, List.count_append, List.count_append]
    split
    · exact Nat.add_le_add_left ih _
    · exact Nat.add_le_add (Nat.zero_le _) ih

/-- Between two lists on one line a dot is lost. -/
theorem lineFeed_of_count_dot (h : ∀ l ∈ lists.dropLast, CodePoint.ofChar '.' ∈ l.after)
    (hcount : (keptAfter lists).count (CodePoint.ofChar '.') =
      (lists.flatMap (·.after)).count (CodePoint.ofChar '.')) :
    ∀ l ∈ lists.dropLast, CodePoint.ofChar '\n' ∈ l.after := by
  fun_induction keptAfter lists with
  | case1 => simp
  | case2 l => simp
  | case3 l m lists ih =>
    have hle := count_dot_keptAfter_le (m :: lists)
    rw [List.flatMap_cons, List.count_append, List.count_append] at hcount
    rw [List.dropLast_cons_cons, List.forall_mem_cons] at h ⊢
    by_cases hfeed : CodePoint.ofChar '\n' ∈ l.after
    · rw [if_pos hfeed] at hcount
      exact ⟨hfeed, ih h.2 (Nat.add_left_cancel hcount)⟩
    · have hdot := List.count_pos_iff.mpr h.1
      rw [if_neg hfeed, List.count_nil] at hcount
      omega

namespace Outline

/-- What is left of the text if its lists are on one line each. -/
def kept (o : Outline) : Text := o.first ++ keptAfter o.lists

theorem OnePerLine.kept_eq (h : o.OnePerLine) : o.kept = o.outer := by
  rw [kept, outer, keptAfter_eq_flatMap h.lineFeed]

/-- No line feeds are dropped, so that none are in the lists if these are. -/
theorem isInline_of_dropArguments (h : dropArguments 0 o.text = o.outer) : o.IsInline := by
  have hfeeds := (dropped_dropArguments o.text).count_lineFeed
  rw [h, outer, text, List.count_append, List.count_append, count_lineFeed_lists] at hfeeds
  have hnone : CodePoint.ofChar '\n' ∉ o.lists.flatMap (·.inside) :=
    List.count_eq_zero.mp (by omega)
  exact fun l hl hm => hnone (List.mem_flatMap.mpr ⟨l, hl, hm⟩)

namespace IsRegular

theorem outside_text (h : o.IsRegular) : outside 0 o.text = o.outer := by
  rw [text, outer, h.first.outside_append, outside_lists h.inside h.after]

theorem dropArguments_text (h : o.IsRegular) (hinline : o.IsInline) :
    dropArguments 0 o.text = o.kept := by
  obtain ⟨first, lists⟩ := o
  rw [text, kept, dropArguments_append_of_notMem h.first.less]
  cases lists with
  | nil => rfl
  | cons l lists => rw [dropArguments_lists hinline h.after]

/-- Lists on one line with one another are lost with what stands between them. -/
theorem onePerLine_of_trim (h : o.IsRegular) (hinline : o.IsInline)
    (he : Text.trim o.kept = Text.trim o.outer) : o.OnePerLine := by
  have hcount := congrArg (List.count (CodePoint.ofChar '.')) he
  rw [Text.count_trim (by decide), Text.count_trim (by decide), kept, outer, List.count_append,
    List.count_append] at hcount
  exact ⟨hinline, lineFeed_of_count_dot h.dot (Nat.add_left_cancel hcount)⟩

/-- The lists and nothing else are dropped exactly if there is one list at most on each line. -/
theorem dropArguments_text_eq_iff (h : o.IsRegular) :
    dropArguments 0 o.text = o.outer ↔ o.OnePerLine := by
  constructor
  · intro he
    have hinline := isInline_of_dropArguments he
    rw [h.dropArguments_text hinline] at he
    exact h.onePerLine_of_trim hinline (congrArg Text.trim he)
  · intro hline
    rw [h.dropArguments_text hline.isInline, hline.kept_eq]

end IsRegular

theorem isRegular_of_bracketless (h : Bracketless t) : IsRegular ⟨t, []⟩ :=
  ⟨h, by simp, by simp, by simp⟩

theorem IsRegular.append (hx : Bracketless x) (h : o.IsRegular) :
    IsRegular ⟨x ++ o.first, o.lists⟩ :=
  ⟨bracketless_append_iff.mpr ⟨hx, h.first⟩, h.inside, h.after, h.dot⟩

/-- A list can be put before an outline that has a dot before its own lists. -/
theorem IsRegular.angles (hx : Bracketless x) (ht : Matched t) (h : o.IsRegular)
    (hdot : o.lists ≠ [] → CodePoint.ofChar '.' ∈ o.first) :
    IsRegular ⟨x, ⟨t, o.first⟩ :: o.lists⟩ := by
  refine ⟨hx, List.forall_mem_cons.mpr ⟨ht, h.inside⟩, List.forall_mem_cons.mpr ⟨h.first, h.after⟩,
    fun l hl => ?_⟩
  obtain ⟨first, lists⟩ := o
  cases lists with
  | nil => cases hl
  | cons m lists =>
    rw [List.dropLast_cons_cons] at hl
    rcases List.mem_cons.mp hl with rfl | hl
    · exact hdot (List.cons_ne_nil _ _)
    · exact h.dot l hl

end Outline

end MemberAccess.Java.TypeName
