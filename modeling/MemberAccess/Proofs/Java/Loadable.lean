import MemberAccess.Proofs.Java.Erasure
import MemberAccess.Proofs.Java.TypeName

/-!
# Names under which classes are loaded

Of a type as it is written, the element, the number of dimensions and nothing else is in the name
under which its class is loaded, and both can be read off the name of an array. A name that is such
already stays as it is. The class expression of a type is that of its erasure, except where only the
erasure is the name of a primitive type.
-/

namespace MemberAccess.Java.TypeName

variable {name ending x t : Text} {limit : Nat}

theorem elementDescriptor_text (p : Primitive) : elementDescriptor p.text = descriptor p := by
  rw [elementDescriptor, primitive?_eq_some_iff.mpr rfl]

theorem elementDescriptor_of_ne (h : ∀ p : Primitive, name ≠ p.text) :
    elementDescriptor name = "L" ++ name ++ ";" := by
  have hnone : primitive? name = none :=
    Option.eq_none_iff_forall_not_mem.mpr fun p hp => h p (primitive?_eq_some_iff.mp hp)
  rw [elementDescriptor, hnone]

/-- An element type is a primitive type or has another name. -/
theorem elementDescriptor_cases (name : Text) :
    (∃ p : Primitive, name = p.text ∧ elementDescriptor name = descriptor p) ∨
      (∀ p : Primitive, name ≠ p.text) ∧ elementDescriptor name = "L" ++ name ++ ";" := by
  by_cases h : ∃ p : Primitive, name = p.text
  · obtain ⟨p, rfl⟩ := h
    exact .inl ⟨p, rfl, elementDescriptor_text p⟩
  · rw [not_exists] at h
    exact .inr ⟨h, elementDescriptor_of_ne h⟩

theorem length_descriptor (p : Primitive) : (descriptor p).length = 1 := by cases p <;> rfl

theorem descriptor_injective : Function.Injective descriptor := by
  intro p q h
  have hall : ∀ p ∈ Primitive.all, ∀ q ∈ Primitive.all, descriptor p = descriptor q → p = q := by
    decide
  exact hall p p.mem_all q q.mem_all h

theorem elementDescriptor_injective : Function.Injective elementDescriptor := by
  intro name other h
  have hlong : ∀ (p : Primitive) (x : Text), descriptor p ≠ "L" ++ x ++ ";" := by
    intro p x he
    have := congrArg List.length he
    rw [length_descriptor] at this
    simp [Text.ofString] at this
  rcases elementDescriptor_cases name with ⟨p, rfl, hp⟩ | ⟨-, hp⟩ <;>
    rcases elementDescriptor_cases other with ⟨q, rfl, hq⟩ | ⟨-, hq⟩ <;> rw [hp, hq] at h
  · rw [descriptor_injective h]
  · exact absurd h (hlong p other)
  · exact absurd h.symm (hlong q name)
  · exact List.append_cancel_left (List.append_cancel_right h)

/-- How the descriptor of an element begins and ends tells it from the brackets around it. -/
theorem elementDescriptor_ends (name : Text) :
    (∃ c r, elementDescriptor name = c :: r ∧ c ∈ descriptorMarks.tail) ∧
      ∃ c, (elementDescriptor name).getLast? = some c ∧ c ∈ descriptorMarks.tail := by
  rcases elementDescriptor_cases name with ⟨p, -, h⟩ | ⟨-, h⟩
  · rw [h]
    cases p <;> exact ⟨⟨_, [], rfl, by decide⟩, _, rfl, by decide⟩
  · rw [h]
    refine ⟨⟨CodePoint.ofChar 'L', name ++ ";", rfl, by decide⟩, CodePoint.ofChar ';', ?_,
      by decide⟩
    rw [List.getLast?_append]
    rfl

/-- The name under which the class of an array is loaded. -/
def arrayName (dimensions : Nat) (element : Text) : Text :=
  List.replicate dimensions (CodePoint.ofChar '[') ++ elementDescriptor element

theorem arrayName_inj {dimensions dimensions' : Nat} {element element' : Text} :
    arrayName dimensions element = arrayName dimensions' element' ↔
      element = element' ∧ dimensions = dimensions' := by
  have hbracket : ∀ name r : Text, elementDescriptor name ≠ CodePoint.ofChar '[' :: r := by
    intro name r he
    obtain ⟨⟨c, r', h, hc⟩, -⟩ := elementDescriptor_ends name
    obtain rfl := (List.cons_eq_cons.mp (h.symm.trans he)).1
    exact absurd hc (by decide)
  constructor
  · intro h
    induction dimensions generalizing dimensions' with
    | zero =>
      cases dimensions' with
      | zero => exact ⟨elementDescriptor_injective h, rfl⟩
      | succ n => exact absurd h (hbracket _ _)
    | succ n ih =>
      cases dimensions' with
      | zero => exact absurd h.symm (hbracket _ _)
      | succ m => exact (ih (List.cons_eq_cons.mp h).2).imp_right (congrArg (· + 1))
  · rintro ⟨rfl, rfl⟩
    rfl

theorem argumentFree_elementDescriptor (h : ArgumentFree name) :
    ArgumentFree (elementDescriptor name) := by
  rcases elementDescriptor_cases name with ⟨p, -, he⟩ | ⟨-, he⟩
  · have hp : ∀ p ∈ Primitive.all, CodePoint.ofChar '<' ∉ descriptor p := by decide
    have := argumentFree_nil.append_left (hp p p.mem_all)
    rwa [List.append_nil, ← he] at this
  · rw [he]
    exact (h.append_left (by decide)).append_singleton (by decide)

theorem argumentFree_arrayName (h : ArgumentFree name) (dimensions : Nat) :
    ArgumentFree (arrayName dimensions name) := by
  refine (argumentFree_elementDescriptor h).append_left fun hm => ?_
  exact absurd (List.eq_of_mem_replicate hm) (by decide)

theorem getLast?_arrayName (dimensions : Nat) (name : Text) :
    ∃ c, (arrayName dimensions name).getLast? = some c ∧ c ∈ descriptorMarks := by
  obtain ⟨-, c, h, hc⟩ := elementDescriptor_ends name
  exact ⟨c, by rw [arrayName, List.getLast?_append, h]; rfl, List.mem_of_mem_tail hc⟩

theorem isTrimmed_arrayName (dimensions : Nat) (name : Text) :
    Text.IsTrimmed (arrayName dimensions name) := by
  have hmarks : ∀ c ∈ descriptorMarks, c.isBlank = false := by decide
  refine ⟨fun c hc => ?_, fun c hc => ?_⟩
  · cases dimensions with
    | zero =>
      obtain ⟨⟨d, r, h, hd⟩, -⟩ := elementDescriptor_ends name
      rw [arrayName, List.replicate_zero, List.nil_append, h] at hc
      exact Option.some.inj hc ▸ hmarks d (List.mem_of_mem_tail hd)
    | succ n => exact Option.some.inj hc ▸ hmarks _ (by decide)
  · obtain ⟨d, h, hd⟩ := getLast?_arrayName dimensions name
    exact Option.some.inj (h.symm.trans hc) ▸ hmarks d hd

theorem not_suffix_of_getLast? {c d : CodePoint} (hname : name.getLast? = some c)
    (hending : ending.getLast? = some d) (h : c ≠ d) : ¬ ending <:+ name := by
  rintro ⟨x, rfl⟩
  rw [List.getLast?_append, hending] at hname
  exact h (Option.some.inj hname).symm

theorem loadable_erase (t : Text) : loadable (erase t) = loadable t := by
  rw [loadable, erase_erase, loadable]

theorem loadable_eq (t : Text) : loadable t =
    if (elementAndDimensions (erase t)).2 = 0 then (elementAndDimensions (erase t)).1
    else arrayName (elementAndDimensions (erase t)).2 (elementAndDimensions (erase t)).1 := rfl

theorem loadable_arrayName (h : ArgumentFree name) (dimensions : Nat) :
    loadable (arrayName dimensions name) = arrayName dimensions name := by
  obtain ⟨c, hlast, hc⟩ := getLast?_arrayName dimensions name
  have hmarks : ∀ c ∈ descriptorMarks, c ≠ '.' ∧ c ≠ ']' := by decide
  have herase := erase_eq_self (argumentFree_arrayName h dimensions)
    (isTrimmed_arrayName dimensions name)
  have hparts := elementAndDimensions_of_not_suffix
    (not_suffix_of_getLast? hlast rfl (hmarks c hc).1)
    (not_suffix_of_getLast? hlast rfl (hmarks c hc).2)
  rw [loadable_eq, herase, hparts, if_pos rfl]

theorem loadable_loadable (t : Text) : loadable (loadable t) = loadable t := by
  have hparts := loadable_eq t
  by_cases hd : (elementAndDimensions (erase t)).2 = 0
  · rw [if_pos hd, element_eq_of_dimensions hd] at hparts
    rw [hparts, loadable_erase, hparts]
  · rw [if_neg hd] at hparts
    have hfree := (argumentFree_erase t).mono (isPrefix_element (erase t)).isInfix
    rw [hparts, loadable_arrayName hfree]

/-- The pieces in which a type is written: the element, what stands in angle brackets after it,
pairs of brackets and an ellipsis. White space stands before each piece, and after the last one. -/
structure ArrayPieces where
  before : Text
  element : Text
  /-- The white space, and what is between the angle brackets. -/
  arguments : Option (Text × Text)
  /-- The white space before each pair. -/
  pairs : List Text
  /-- The white space before the ellipsis. -/
  ellipsis : Option Text
  after : Text

namespace ArrayPieces

def argumentsText (a : ArrayPieces) : Text :=
  match a.arguments with
  | none => []
  | some (space, g) => space ++ CodePoint.ofChar '<' :: (g ++ [CodePoint.ofChar '>'])

def ellipsisText (a : ArrayPieces) : Text :=
  match a.ellipsis with
  | none => []
  | some space => space ++ Text.ofString "..."

def text (a : ArrayPieces) : Text :=
  a.before ++ (a.element ++ (a.argumentsText ++
    (a.pairs.flatMap (· ++ Text.ofString "[]") ++ (a.ellipsisText ++ a.after))))

/-- An ellipsis is a dimension as well. -/
def dimensions (a : ArrayPieces) : Nat := a.pairs.length + a.ellipsis.toList.length

/-- All the white space. -/
def spaces (a : ArrayPieces) : List Text :=
  a.before :: a.after :: (a.arguments.map Prod.fst).toList ++ a.pairs ++ a.ellipsis.toList

/-- The white space is such, the arguments are on one line, and where the element ends can be
seen. -/
structure IsRegular (a : ArrayPieces) : Prop where
  isBlank : ∀ s ∈ a.spaces, Text.isBlank s = true
  isTrimmed : Text.IsTrimmed a.element
  less_notMem : CodePoint.ofChar '<' ∉ a.element
  greater_notMem : CodePoint.ofChar '>' ∉ a.element
  not_pair : ¬ Text.ofString "[]" <:+ a.element
  not_ellipsis : ¬ Text.ofString "..." <:+ a.element
  lineFeed_notMem : ∀ g ∈ a.arguments, CodePoint.ofChar '\n' ∉ g.2

variable {a : ArrayPieces}

theorem notMem_of_isBlank {s : Text} {c : CodePoint} (hs : Text.isBlank s = true)
    (hc : c.isBlank = false) : c ∉ s := fun hm => by
  rw [List.all_eq_true.mp hs c hm] at hc
  cases hc

namespace IsRegular

theorem before (h : a.IsRegular) : Text.isBlank a.before = true := h.isBlank _ (by simp [spaces])

theorem after (h : a.IsRegular) : Text.isBlank a.after = true := h.isBlank _ (by simp [spaces])

theorem arguments (h : a.IsRegular) {g : Text × Text} (hg : a.arguments = some g) :
    Text.isBlank g.1 = true :=
  h.isBlank _ (by simp [spaces, hg])

theorem pairs (h : a.IsRegular) : ∀ s ∈ a.pairs, Text.isBlank s = true :=
  fun s hs => h.isBlank s (by simp [spaces, hs])

theorem ellipsis (h : a.IsRegular) {s : Text} (hs : a.ellipsis = some s) : Text.isBlank s = true :=
  h.isBlank _ (by simp [spaces, hs])

/-- Nothing that stands after the arguments is in angle brackets. -/
theorem notMem_rest (h : a.IsRegular) {c : CodePoint} (hc : c ∈ Text.ofString "<>") :
    c ∉ a.pairs.flatMap (· ++ Text.ofString "[]") ++ (a.ellipsisText ++ a.after) := by
  have hall : ∀ c ∈ Text.ofString "<>", c.isBlank = false ∧ c ∉ Text.ofString "[]" ∧
      c ∉ Text.ofString "..." := by decide
  obtain ⟨hblank, hpair, hellipsis⟩ := hall c hc
  simp only [List.mem_append, List.mem_flatMap, not_or, not_exists, not_and]
  refine ⟨fun s hs => ⟨notMem_of_isBlank (h.pairs s hs) hblank, hpair⟩, ?_,
    notMem_of_isBlank h.after hblank⟩
  rw [ellipsisText]
  cases hs : a.ellipsis with
  | none => simp
  | some s =>
    rw [List.mem_append, not_or]
    exact ⟨notMem_of_isBlank (h.ellipsis hs) hblank, hellipsis⟩

/-- Without its arguments a type is the same pieces. -/
theorem exists_dropArguments (h : a.IsRegular) : ∃ space, Text.isBlank space = true ∧
    dropArguments 0 a.text = a.before ++ (a.element ++ (space ++
      (a.pairs.flatMap (· ++ Text.ofString "[]") ++ (a.ellipsisText ++ a.after)))) := by
  have hless : CodePoint.isBlank '<' = false := by decide
  have hrest := h.notMem_rest (c := '<') (by decide)
  have hgreater := h.notMem_rest (c := '>') (by decide)
  rw [text, dropArguments_append_of_notMem (notMem_of_isBlank h.before hless),
    dropArguments_append_of_notMem h.less_notMem, argumentsText]
  cases hg : a.arguments with
  | none => exact ⟨[], rfl, by rw [List.nil_append, dropArguments_of_notMem hrest]⟩
  | some g =>
    obtain ⟨space, g⟩ := g
    have hspace := h.arguments hg
    have hstretch := dropArguments_stretch (h.lineFeed_notMem _ hg) fun hm =>
      hgreater ((isPrefix_firstLine _).subset hm)
    refine ⟨space, hspace, ?_⟩
    simp only [List.append_assoc, List.cons_append, List.nil_append]
    rw [dropArguments_append_of_notMem (notMem_of_isBlank hspace hless), hstretch,
      dropArguments_of_notMem hrest]

end IsRegular

theorem trim_append_pair (x : Text) :
    Text.trim (x ++ Text.ofString "[]") = Text.trimStart x ++ Text.ofString "[]" :=
  Text.trim_append_of_isTrimmed ⟨by decide, by decide⟩ (by decide) x

theorem trim_append_dots (x : Text) :
    Text.trim (x ++ Text.ofString "...") = Text.trimStart x ++ Text.ofString "..." :=
  Text.trim_append_of_isTrimmed ⟨by decide, by decide⟩ (by decide) x

/-- Pairs of brackets are taken from the end, each with the white space before it. -/
theorem dropPairs_trim {element : Text} {pairs : List Text}
    (hpairs : ∀ s ∈ pairs, Text.isBlank s = true) (hx : Text.trim x = element)
    (helement : ¬ Text.ofString "[]" <:+ element)
    (hlimit : (Text.trim (x ++ pairs.flatMap (· ++ Text.ofString "[]"))).length ≤ limit) :
    dropPairs limit (Text.trim (x ++ pairs.flatMap (· ++ Text.ofString "[]"))) =
      (element, pairs.length) := by
  -- The last pair is found first, and the white space before it is trimmed with the rest.
  induction pairs using List.reverseRecOn generalizing limit with
  | nil =>
    rw [List.flatMap_nil, List.append_nil, hx]
    exact dropPairs_of_not_suffix helement limit
  | append_singleton pairs s ih =>
    have hs := hpairs s (by simp)
    have htext : Text.trim (x ++ (pairs ++ [s]).flatMap (· ++ Text.ofString "[]")) =
        Text.trimStart (x ++ pairs.flatMap (· ++ Text.ofString "[]") ++ s) ++
          Text.ofString "[]" := by
      rw [← trim_append_pair]
      simp
    have hshorter : Text.trimEnd
        (Text.trimStart (x ++ pairs.flatMap (· ++ Text.ofString "[]") ++ s)) =
          Text.trim (x ++ pairs.flatMap (· ++ Text.ofString "[]")) :=
      Text.trim_append_of_isBlank hs _
    rw [htext, List.length_append] at hlimit
    cases limit with
    | zero => simp [Text.ofString] at hlimit
    | succ limit =>
      have hle := hshorter ▸ (Text.isPrefix_trimEnd _).length_le
      have htwo : (Text.ofString "[]").length = 2 := rfl
      rw [htext, dropPairs_append, hshorter,
        ih (fun s hs => hpairs s (List.mem_append_left _ hs)) (by omega), List.length_append]
      rfl

theorem elementAndDimensions_erase (h : a.IsRegular) :
    elementAndDimensions (erase a.text) = (a.element, a.dimensions) := by
  obtain ⟨space, hspace, hdropped⟩ := h.exists_dropArguments
  have hx : Text.trim (a.element ++ space) = a.element := by
    rw [Text.trim_append_of_isBlank hspace, Text.trim_of_isTrimmed h.isTrimmed]
  have herase : erase a.text = Text.trim (a.element ++ space ++
      a.pairs.flatMap (· ++ Text.ofString "[]") ++ a.ellipsisText) := by
    rw [erase, hdropped, Text.trim_append_left_of_isBlank h.before]
    simp only [← List.append_assoc]
    rw [Text.trim_append_of_isBlank h.after]
  have hpairs := dropPairs_trim h.pairs hx h.not_pair (Nat.le_refl _)
  rw [herase, ellipsisText, dimensions, elementAndDimensions]
  cases hs : a.ellipsis with
  | none =>
    have hnone : ¬ Text.ofString "..." <:+
        Text.trim (a.element ++ space ++ a.pairs.flatMap (· ++ Text.ofString "[]")) := by
      rcases List.eq_nil_or_concat a.pairs with he | ⟨pairs, s, he⟩
      · rw [he, List.flatMap_nil, List.append_nil, hx]
        exact h.not_ellipsis
      · rw [he, List.concat_eq_append, List.flatMap_append, List.flatMap_cons, List.flatMap_nil,
          List.append_nil, ← List.append_assoc, ← List.append_assoc, trim_append_pair]
        refine not_suffix_of_getLast? (c := ']') ?_ rfl (by decide)
        rw [List.getLast?_append]
        rfl
    simp only [List.append_nil, dropEnding?_eq_none_iff.mpr hnone]
    exact hpairs
  | some s =>
    have hshorter : Text.trimEnd (Text.trimStart (a.element ++ space ++
        a.pairs.flatMap (· ++ Text.ofString "[]") ++ s)) = Text.trim (a.element ++ space ++
          a.pairs.flatMap (· ++ Text.ofString "[]")) :=
      Text.trim_append_of_isBlank (h.ellipsis hs) _
    simp only [← List.append_assoc]
    rw [trim_append_dots]
    simp only [dropEnding?_append, hshorter, hpairs]
    rfl

/-- Of a type the element and the number of dimensions are loaded, in the form of a descriptor if it
is an array. The name of an array tells both, and what is loaded is loaded as it is. -/
theorem loadable_describes {b : ArrayPieces} (ha : a.IsRegular) (hb : b.IsRegular) (t : Text) :
    (a.dimensions = 0 → loadable a.text = a.element) ∧
    (∀ p : Primitive, 0 < a.dimensions → a.element = p.text → loadable a.text =
      List.replicate a.dimensions (CodePoint.ofChar '[') ++ descriptor p) ∧
    (0 < a.dimensions → (∀ p : Primitive, a.element ≠ p.text) → loadable a.text =
      List.replicate a.dimensions (CodePoint.ofChar '[') ++ ("L" ++ a.element ++ ";")) ∧
    (0 < a.dimensions → 0 < b.dimensions → (loadable a.text = loadable b.text ↔
      a.element = b.element ∧ a.dimensions = b.dimensions)) ∧
    loadable (loadable t) = loadable t := by
  have hloadable : ∀ {c : ArrayPieces}, c.IsRegular → loadable c.text =
      if c.dimensions = 0 then c.element else arrayName c.dimensions c.element := by
    intro c hc
    rw [loadable_eq, elementAndDimensions_erase hc]
  refine ⟨fun hd => ?_, fun p hd hp => ?_, fun hd hp => ?_, fun hd hd' => ?_, loadable_loadable t⟩
  · rw [hloadable ha, if_pos hd]
  · rw [hloadable ha, if_neg (Nat.ne_of_gt hd), arrayName, hp, elementDescriptor_text]
  · rw [hloadable ha, if_neg (Nat.ne_of_gt hd), arrayName, elementDescriptor_of_ne hp]
  · rw [hloadable ha, hloadable hb, if_neg (Nat.ne_of_gt hd), if_neg (Nat.ne_of_gt hd'),
      arrayName_inj]

theorem loadable_describes_map :
    let a : ArrayPieces := ⟨" ", "java.util.Map", some (" ", "K, V<int[]>"), ["\t", "\n"], some " ",
      "\u3000"⟩
    let b : ArrayPieces := ⟨"", "int", none, [""], none, ""⟩
    a.IsRegular ∧ b.IsRegular ∧ loadable a.text = "[[[Ljava.util.Map;" ∧ loadable b.text = "[I" ∧
      loadable "[[[Ljava.util.Map;" = "[[[Ljava.util.Map;" := by
  intro a b
  have ha : a.IsRegular := ⟨by decide, ⟨by decide, by decide⟩, by decide, by decide, by decide,
    by decide, by decide⟩
  have hb : b.IsRegular := ⟨by decide, ⟨by decide, by decide⟩, by decide, by decide, by decide,
    by decide, by decide⟩
  obtain ⟨-, -, hmap, -, htwice⟩ := loadable_describes ha hb a.text
  have hmap := hmap (by decide) fun p => by cases p <;> decide
  obtain ⟨-, hint, -⟩ := loadable_describes hb ha a.text
  exact ⟨ha, hb, hmap, hint .int (by decide) rfl, by rw [hmap] at htwice; exact htwice⟩

end ArrayPieces

/-- The name of a primitive type is erased already, and it is no array. -/
theorem of_isPrimitive (h : isPrimitive name = true) :
    erase name = name ∧ loadable name = name := by
  rcases isPrimitive_iff.mp h with ⟨p, rfl⟩ | rfl
  · cases p <;> decide
  · decide

theorem isPrimitive_of_erase (h : isPrimitive (erase name) = true) :
    isPrimitive name = true ↔ erase name = name :=
  ⟨fun hn => (of_isPrimitive hn).1, fun he => he ▸ h⟩

theorem classExpression_of_isPrimitive (h : isPrimitive name = true) :
    classExpression name = name ++ ".class" := if_pos h

theorem classExpression_of_not_isPrimitive (h : isPrimitive name = false) :
    classExpression name = "java.lang.Class.forName(" ++ quote (loadable (erase name)) ++ ")" := by
  rw [classExpression, loadable_erase, if_neg (Bool.not_eq_true _ ▸ h)]

/-- A type and its erasure have the same class expression unless the erasure is the name of a
primitive type and the type is written otherwise. A class of that name is loaded then. The class
expressions of all other types depend on the erasures alone. -/
theorem classExpression_erase (t : Text) :
    (classExpression t = classExpression (erase t) ↔
      (isPrimitive (erase t) = true → erase t = t)) ∧
    (isPrimitive (erase t) = true → erase t ≠ t →
      classExpression t = "java.lang.Class.forName(" ++ quote (erase t) ++ ")" ∧
        classExpression (erase t) = erase t ++ ".class") ∧
    ∀ u, erase u = erase t → isPrimitive (erase t) = false →
      classExpression u = classExpression t := by
  have hother : ∀ u, erase u = erase t → isPrimitive (erase t) = false →
      classExpression u = "java.lang.Class.forName(" ++ quote (loadable (erase t)) ++ ")" := by
    intro u hu ht
    have hraw : isPrimitive u = false := by
      by_contra hn
      rw [Bool.not_eq_false] at hn
      rw [← hu, (of_isPrimitive hn).1, hn] at ht
      cases ht
    rw [classExpression_of_not_isPrimitive hraw, hu]
  have hprimitive : isPrimitive (erase t) = true → erase t ≠ t →
      classExpression t = "java.lang.Class.forName(" ++ quote (erase t) ++ ")" ∧
        classExpression (erase t) = erase t ++ ".class" := by
    intro hp hne
    have hraw := (isPrimitive_of_erase hp).not.mpr hne
    rw [Bool.not_eq_true] at hraw
    rw [classExpression_of_not_isPrimitive hraw, (of_isPrimitive hp).2,
      classExpression_of_isPrimitive hp]
    exact ⟨rfl, rfl⟩
  refine ⟨⟨fun h hp => ?_, fun h => ?_⟩, hprimitive,
    fun u hu ht => (hother u hu ht).trans (hother t rfl ht).symm⟩
  · by_contra hne
    obtain ⟨ht, he⟩ := hprimitive hp hne
    have hlast := congrArg List.getLast? (ht.symm.trans (h.trans he))
    simp only [List.getLast?_append] at hlast
    exact absurd (Option.some.inj hlast) (by decide)
  · cases hp : isPrimitive (erase t) with
    | true => rw [h hp]
    | false => rw [hother t rfl hp, hother (erase t) (erase_erase t) hp]

/-- The white space after the name makes another class of it. -/
theorem classExpression_int_space : erase "int " = "int" ∧
    classExpression "int " = "java.lang.Class.forName(\"int\")" ∧
    classExpression "int" = "int.class" ∧
    classExpression "int " ≠ classExpression (erase "int ") := by decide

end MemberAccess.Java.TypeName
