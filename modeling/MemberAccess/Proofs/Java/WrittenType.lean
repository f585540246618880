import MemberAccess.Proofs.Java.Ebnf.Completeness
import MemberAccess.Proofs.Java.Ebnf.Soundness
import MemberAccess.Proofs.Java.Lexeme.Literal
import MemberAccess.Proofs.Java.Phrase
import MemberAccess.Proofs.Java.Return

/-!
# Types as they are written

The value of a class type has one list of arguments, and does not tell after which part of the name
it was written. Everything else of a type can be read off its value: two types with the same value
are written alike, once the last arguments of each class type are all that it has and stand at its
end.
-/

namespace MemberAccess.Java

open Nonterminal Lexer

mutual

/-- A type with the arguments after each part of a name. -/
inductive WrittenType where
  | primitive (p : Primitive) (dimensions : Nat)
  | reference (c : WrittenClass) (dimensions : Nat)

/-- The parts of a name, each with the arguments after it, if there are any. -/
inductive WrittenClass where
  | last (name : Text) (arguments : List WrittenArgument)
  | part (name : Text) (arguments : List WrittenArgument) (rest : WrittenClass)

inductive WrittenArgument where
  | type (t : WrittenType)
  | any
  | extending (bound : WrittenType)
  | superOf (bound : WrittenType)

end

def brackets : Nat → List Lexeme
  | 0 => []
  | k + 1 => markLexeme .leftBracket :: markLexeme .rightBracket :: brackets k

/-- A list of arguments, which is not written if there are none. -/
def inAngles : List (List Lexeme) → List Lexeme
  | [] => []
  | u :: us => markLexeme .less ::
    (u ++ (us.flatMap (markLexeme .comma :: ·) ++ [markLexeme .greater]))

mutual

def WrittenType.lexemes : WrittenType → List Lexeme
  | .primitive p k => keywordLexeme (.primitive p) :: brackets k
  | .reference c k => c.lexemes ++ brackets k

def WrittenClass.lexemes : WrittenClass → List Lexeme
  | .last x as => nameLexeme x :: inAngles (WrittenArgument.lexemesOf as)
  | .part x as rest =>
    nameLexeme x :: (inAngles (WrittenArgument.lexemesOf as) ++ markLexeme .dot :: rest.lexemes)

def WrittenArgument.lexemes : WrittenArgument → List Lexeme
  | .type t => t.lexemes
  | .any => [markLexeme .question]
  | .extending t => markLexeme .question :: keywordLexeme .extends_ :: t.lexemes
  | .superOf t => markLexeme .question :: keywordLexeme .super :: t.lexemes

def WrittenArgument.lexemesOf : List WrittenArgument → List (List Lexeme)
  | [] => []
  | a :: as => a.lexemes :: WrittenArgument.lexemesOf as

end

mutual

def WrittenType.value : WrittenType → TypeExpr
  | .primitive p k => .primitive p k
  | .reference c k => .reference (.ofParts c.parts) k

def WrittenClass.parts : WrittenClass → List (Text × List TypeArgument)
  | .last x as => [(x, WrittenArgument.valuesOf as)]
  | .part x as rest => (x, WrittenArgument.valuesOf as) :: rest.parts

def WrittenArgument.value : WrittenArgument → TypeArgument
  | .type t => .type t.value
  | .any => .any
  | .extending t => .extending t.value
  | .superOf t => .superOf t.value

def WrittenArgument.valuesOf : List WrittenArgument → List TypeArgument
  | [] => []
  | a :: as => a.value :: WrittenArgument.valuesOf as

end

mutual

/-- The parts of names are identifiers. -/
def WrittenType.IsNamed : WrittenType → Prop
  | .primitive _ _ => True
  | .reference c _ => c.IsNamed

def WrittenClass.IsNamed : WrittenClass → Prop
  | .last x as => IsIdentifier x ∧ WrittenArgument.AllNamed as
  | .part x as rest => IsIdentifier x ∧ WrittenArgument.AllNamed as ∧ rest.IsNamed

def WrittenArgument.IsNamed : WrittenArgument → Prop
  | .type t | .extending t | .superOf t => t.IsNamed
  | .any => True

def WrittenArgument.AllNamed : List WrittenArgument → Prop
  | [] => True
  | a :: as => a.IsNamed ∧ WrittenArgument.AllNamed as

end

/-- The arguments of a part, or those found before if it has none. -/
def laterArguments {A : Type} (found as : List A) : List A := if as.isEmpty then found else as

mutual

/-- The type with only the last arguments of each class type, and these at its end. -/
def WrittenType.kept : WrittenType → WrittenType
  | .primitive p k => .primitive p k
  | .reference c k => .reference (c.kept []) k

/-- The arguments `found` are the last ones before. -/
def WrittenClass.kept : WrittenClass → (found : List WrittenArgument) → WrittenClass
  | .last x as, found => .last x (laterArguments found (WrittenArgument.keptOf as))
  | .part x as rest, found =>
    .part x [] (rest.kept (laterArguments found (WrittenArgument.keptOf as)))

def WrittenArgument.kept : WrittenArgument → WrittenArgument
  | .type t => .type t.kept
  | .any => .any
  | .extending t => .extending t.kept
  | .superOf t => .superOf t.kept

def WrittenArgument.keptOf : List WrittenArgument → List WrittenArgument
  | [] => []
  | a :: as => a.kept :: WrittenArgument.keptOf as

end

/-- A class type with arguments at its end only. -/
def WrittenClass.named : List Text → List WrittenArgument → WrittenClass
  | [], as => .last [] as
  | [x], as => .last x as
  | x :: y :: xs, as => .part x [] (WrittenClass.named (y :: xs) as)

mutual

def WrittenType.ofValue : TypeExpr → WrittenType
  | .primitive p k => .primitive p k
  | .reference c k => .reference (WrittenClass.ofValue c) k

def WrittenClass.ofValue : ClassType → WrittenClass
  | .mk x as => .named (x.splitOn '.') (WrittenArgument.ofValues as)

def WrittenArgument.ofValue : TypeArgument → WrittenArgument
  | .type t => .type (.ofValue t)
  | .any => .any
  | .extending t => .extending (.ofValue t)
  | .superOf t => .superOf (.ofValue t)

def WrittenArgument.ofValues : List TypeArgument → List WrittenArgument
  | [] => []
  | a :: as => .ofValue a :: WrittenArgument.ofValues as

end

theorem ofValues_laterArguments (found as : List TypeArgument) :
    WrittenArgument.ofValues (laterArguments found as) =
      laterArguments (WrittenArgument.ofValues found) (WrittenArgument.ofValues as) := by
  cases as <;> rfl

/-- The name of a class type has a dot between any two of its parts. -/
def WrittenClass.names : WrittenClass → List Text
  | .last x _ => [x]
  | .part x _ rest => x :: rest.names

theorem WrittenClass.names_ne_nil (c : WrittenClass) : c.names ≠ [] := by cases c <;> simp [names]

theorem WrittenClass.map_parts : (c : WrittenClass) → c.parts.map Prod.fst = c.names
  | .last _ _ => by rw [parts, names, List.map_singleton]
  | .part _ _ rest => by rw [parts, names, List.map_cons, rest.map_parts]

theorem dot_notMem {x : Text} (h : IsIdentifier x) : CodePoint.ofChar '.' ∉ x := by
  intro hm
  have hdot : isIdentifierPart '.' = false := by decide +kernel
  rw [List.all_eq_true.mp (isIdentifier_iff.mp h).1.2 _ hm] at hdot
  cases hdot

theorem WrittenClass.dot_notMem_names :
    (c : WrittenClass) → c.IsNamed → ∀ x ∈ c.names, CodePoint.ofChar '.' ∉ x
  | .last _ _, h => by simpa [names] using dot_notMem h.1
  | .part _ _ rest, h =>
    List.forall_mem_cons.mpr ⟨dot_notMem h.1, rest.dot_notMem_names h.2.2⟩

theorem WrittenClass.named_cons {xs : List Text} (hxs : xs ≠ []) (x : Text)
    (as : List WrittenArgument) : named (x :: xs) as = .part x [] (named xs as) := by
  obtain ⟨y, ys, rfl⟩ := List.exists_cons_of_ne_nil hxs
  rfl

mutual

/-- A type is read off its value, up to arguments that are not the last of their class. -/
theorem WrittenType.ofValue_value :
    (s : WrittenType) → s.IsNamed → WrittenType.ofValue s.value = s.kept
  | .primitive _ _, _ => rfl
  | .reference c k, h => by
    have hsplit : (Text.join "." c.names).splitOn (CodePoint.ofChar '.') = c.names :=
      List.splitOn_intercalate (CodePoint.ofChar '.') (c.dot_notMem_names h) c.names_ne_nil
    have hc := c.named_ofValues h []
    rw [WrittenType.value, WrittenType.ofValue, WrittenType.kept, ClassType.ofParts, c.map_parts,
      WrittenClass.ofValue, hsplit]
    exact congrArg (WrittenType.reference · k) hc

theorem WrittenClass.named_ofValues :
    (c : WrittenClass) → c.IsNamed → (found : List TypeArgument) →
    WrittenClass.named c.names (WrittenArgument.ofValues (c.parts.foldl (fun found part =>
      laterArguments found part.2) found)) = c.kept (WrittenArgument.ofValues found)
  | .last x as, h, found => by
    have has := WrittenArgument.ofValues_valuesOf as h.2
    simp only [WrittenClass.parts, WrittenClass.names, WrittenClass.kept, WrittenClass.named,
      List.foldl_cons, List.foldl_nil, ofValues_laterArguments, has]
  | .part x as rest, h, found => by
    have has := WrittenArgument.ofValues_valuesOf as h.2.1
    have hrest := rest.named_ofValues h.2.2 (laterArguments found (WrittenArgument.valuesOf as))
    rw [ofValues_laterArguments, has] at hrest
    rw [WrittenClass.parts, WrittenClass.names, WrittenClass.kept,
      WrittenClass.named_cons rest.names_ne_nil, List.foldl_cons, hrest]

theorem WrittenArgument.ofValue_value :
    (a : WrittenArgument) → a.IsNamed → WrittenArgument.ofValue a.value = a.kept
  | .type t, h => congrArg WrittenArgument.type (t.ofValue_value h)
  | .any, _ => rfl
  | .extending t, h => congrArg WrittenArgument.extending (t.ofValue_value h)
  | .superOf t, h => congrArg WrittenArgument.superOf (t.ofValue_value h)

theorem WrittenArgument.ofValues_valuesOf : (as : List WrittenArgument) →
    WrittenArgument.AllNamed as →
    WrittenArgument.ofValues (WrittenArgument.valuesOf as) = WrittenArgument.keptOf as
  | [], _ => rfl
  | a :: as, h => by
    rw [WrittenArgument.valuesOf, WrittenArgument.ofValues, WrittenArgument.keptOf,
      a.ofValue_value h.1, WrittenArgument.ofValues_valuesOf as h.2]

end

theorem derives_brackets (k : Nat) : dimensions.Derives (brackets k) k := by
  induction k with
  | zero => exact derives_dimensions_zero.mpr rfl
  | succ k ih => exact derives_dimensions_succ.mpr ⟨_, _, _, rfl, ih⟩

theorem derives_primitive (p : Primitive) : primitive.Derives [keywordLexeme (.primitive p)] p := by
  cases p <;> exact .intro (List.mem_map_of_mem (by decide)) (.skip (.nil _))

theorem classTypePart_of_forall₂ {us : List (List Lexeme)} {as : List TypeArgument} (x : Text)
    (h : List.Forall₂ typeArgument.Derives us as) :
    classTypePart.Derives (nameLexeme x :: inAngles us) (x, as) := by
  cases h with
  | nil => exact classTypePart_of_name x
  | @cons u a us as ha has =>
    have harguments : typeArguments.Derives (inAngles (u :: us)) (a :: as) :=
      .intro (.head _) (.skip (.node ha (.node (derives_separated .comma has) (.skip (.nil _)))))
    exact .intro (.head _) (.take (.last (derives_opt_some.mpr harguments) rfl))

mutual

theorem WrittenType.derives : (s : WrittenType) → type.Derives s.lexemes s.value
  | .primitive p k =>
    .intro (.head _) (.node (u := [_]) (derives_primitive p) (.last (derives_brackets k) rfl))
  | .reference c k => by
    obtain ⟨u, us, v, vs, hlexemes, hparts, hu, hus⟩ := c.exists_derives
    rw [WrittenType.lexemes, WrittenType.value, hlexemes, hparts]
    exact .intro (.tail _ (.head _)) (.node (classType_of_parts hu hus)
      (.last (derives_brackets k) rfl))

theorem WrittenClass.exists_derives : (c : WrittenClass) → ∃ u us v vs,
    c.lexemes = u ++ us.flatMap (markLexeme .dot :: ·) ∧ c.parts = v :: vs ∧
      classTypePart.Derives u v ∧ List.Forall₂ classTypePart.Derives us vs
  | .last x as => by
    have hpart := classTypePart_of_forall₂ x (WrittenArgument.forall₂_derives as)
    refine ⟨_, [], _, [], ?_, by rw [WrittenClass.parts], hpart, .nil⟩
    rw [WrittenClass.lexemes, List.flatMap_nil, List.append_nil]
  | .part x as rest => by
    obtain ⟨u, us, v, vs, hlexemes, hparts, hu, hus⟩ := rest.exists_derives
    have hpart := classTypePart_of_forall₂ x (WrittenArgument.forall₂_derives as)
    refine ⟨_, u :: us, _, v :: vs, ?_, by rw [WrittenClass.parts, hparts], hpart, .cons hu hus⟩
    rw [WrittenClass.lexemes, hlexemes, List.flatMap_cons]
    rfl

theorem WrittenArgument.derives : (a : WrittenArgument) → typeArgument.Derives a.lexemes a.value
  | .type t => .intro (.head _) (.last t.derives rfl)
  | .any => .intro (.tail _ (.head _)) (.skip (.nil _))
  | .extending t => .intro (.tail _ (.tail _ (.head _))) (.skip (.skip (.last t.derives rfl)))
  | .superOf t =>
    .intro (.tail _ (.tail _ (.tail _ (.head _)))) (.skip (.skip (.last t.derives rfl)))

theorem WrittenArgument.forall₂_derives : (as : List WrittenArgument) →
    List.Forall₂ typeArgument.Derives (WrittenArgument.lexemesOf as) (WrittenArgument.valuesOf as)
  | [] => .nil
  | a :: as => .cons a.derives (WrittenArgument.forall₂_derives as)

end

theorem type_image (s : WrittenType) : Ebnf.Rule.type.Image s.lexemes (.ofTypeExpr s.value) :=
  Ebnf.isWritten_of_derives s.derives

theorem WrittenType.eq_of_image {s : WrittenType} {x : Ebnf.Item}
    (h : Ebnf.Rule.type.Image s.lexemes x) : x = .ofTypeExpr s.value := by
  obtain ⟨v, hv, rfl⟩ := h.means
  have hstands : TypeStands .literal type [] :=
    ⟨by decide, ⟨rfl, heads_nil _⟩, fun _ _ => fun _ _ _ he => by cases he⟩
  rw [(settled_type s.derives .literal _ v [] [] hv rfl hstands hstands).2]

/-- Shorter lexemes that derive a type are a type as it is written. -/
def WrittenBelow (n : Nat) : Prop :=
  ∀ u t, u.length < n → (∀ l ∈ u, Readable l) → type.Derives u t →
    ∃ s : WrittenType, s.IsNamed ∧ u = s.lexemes ∧ t = s.value

variable {n : Nat} {u w t : List Lexeme} {as : List TypeArgument}

theorem eq_markLexeme {m : Mark} {x : Text} (h : Readable ⟨.mark m, x⟩) :
    (⟨.mark m, x⟩ : Lexeme) = markLexeme m :=
  congrArg (Lexeme.mk _) h.isTextOf

theorem eq_keywordLexeme {k : Keyword} {x : Text} (h : Readable ⟨.keyword k, x⟩) :
    (⟨.keyword k, x⟩ : Lexeme) = keywordLexeme k :=
  congrArg (Lexeme.mk _) h.isTextOf

theorem eq_brackets {k : Nat} (hw : ∀ l ∈ w, Readable l) (h : dimensions.Derives w k) :
    w = brackets k := by
  induction k generalizing w with
  | zero => exact derives_dimensions_zero.mp h
  | succ k ih =>
    obtain ⟨x, y, w, rfl, hk⟩ := derives_dimensions_succ.mp h
    simp only [List.forall_mem_cons] at hw
    rw [eq_markLexeme hw.1, eq_markLexeme hw.2.1, ih hw.2.2 hk, brackets]

theorem eq_primitive {p : Primitive} (hw : ∀ l ∈ w, Readable l) (h : primitive.Derives w p) :
    w = [keywordLexeme (.primitive p)] := by
  obtain ⟨a, ha, h⟩ := derives_iff.mp h
  obtain ⟨q, -, rfl⟩ := List.mem_map.mp ha
  obtain ⟨x, _, rfl, rfl, rfl⟩ := h
  rw [eq_keywordLexeme (hw _ (.head _))]

namespace WrittenBelow

theorem argument {a : TypeArgument} (h : WrittenBelow n) (hn : u.length < n)
    (hu : ∀ l ∈ u, Readable l) (ha : typeArgument.Derives u a) :
    ∃ s : WrittenArgument, s.IsNamed ∧ u = s.lexemes ∧ a = s.value := by
  obtain ⟨b, hb, ha⟩ := derives_iff.mp ha
  simp only [alternatives, typeArgumentAlternatives, List.mem_cons, List.not_mem_nil,
    or_false] at hb
  rcases hb with rfl | rfl | rfl | rfl
  · obtain ⟨v, hv, rfl⟩ := Grammar.readsBy_last.mp ha
    obtain ⟨s, hs, rfl, rfl⟩ := h u v hn hu hv
    exact ⟨.type s, hs, rfl, rfl⟩
  · obtain ⟨x, _, rfl, rfl, rfl⟩ := ha
    rw [eq_markLexeme (hu _ (.head _))]
    exact ⟨.any, trivial, rfl, rfl⟩
  · obtain ⟨x, _, rfl, y, v, rfl, hbound⟩ := ha
    obtain ⟨t, hv, rfl⟩ := Grammar.readsBy_last.mp hbound
    simp only [List.forall_mem_cons] at hu
    obtain ⟨s, hs, rfl, rfl⟩ := h v t (by simp at hn; omega) hu.2.2 hv
    rw [eq_markLexeme hu.1, eq_keywordLexeme hu.2.1]
    exact ⟨.extending s, hs, rfl, rfl⟩
  · obtain ⟨x, _, rfl, y, v, rfl, hbound⟩ := ha
    obtain ⟨t, hv, rfl⟩ := Grammar.readsBy_last.mp hbound
    simp only [List.forall_mem_cons] at hu
    obtain ⟨s, hs, rfl, rfl⟩ := h v t (by simp at hn; omega) hu.2.2 hv
    rw [eq_markLexeme hu.1, eq_keywordLexeme hu.2.1]
    exact ⟨.superOf s, hs, rfl, rfl⟩

theorem moreArguments (h : WrittenBelow n) (hn : w.length < n) (hw : ∀ l ∈ w, Readable l)
    (has : (many (next typeArgument)).Derives w as) :
    ∃ ss, WrittenArgument.AllNamed ss ∧
      w = (WrittenArgument.lexemesOf ss).flatMap (markLexeme .comma :: ·) ∧
      as = WrittenArgument.valuesOf ss := by
  induction as generalizing w with
  | nil =>
    obtain rfl := derives_many_nil.mp has
    exact ⟨[], trivial, rfl, rfl⟩
  | cons a as ih =>
    obtain ⟨_, v, rfl, hnext, hmore⟩ := derives_many_cons.mp has
    obtain ⟨x, u, rfl, ha⟩ := derives_after.mp hnext
    simp only [List.cons_append, List.forall_mem_cons, List.forall_mem_append] at hw
    simp only [List.cons_append, List.length_cons, List.length_append] at hn
    obtain ⟨s, hs, rfl, rfl⟩ := h.argument (by omega) hw.2.1 ha
    obtain ⟨ss, hss, rfl, rfl⟩ := ih (by omega) hw.2.2 hmore
    rw [eq_markLexeme hw.1]
    exact ⟨s :: ss, ⟨hs, hss⟩, rfl, rfl⟩

theorem arguments {as : Option (List TypeArgument)} (h : WrittenBelow n) (hn : w.length ≤ n)
    (hw : ∀ l ∈ w, Readable l) (has : (opt typeArguments).Derives w as) :
    ∃ ss, WrittenArgument.AllNamed ss ∧ w = inAngles (WrittenArgument.lexemesOf ss) ∧
      as.getD [] = WrittenArgument.valuesOf ss := by
  cases as with
  | none =>
    obtain rfl := derives_opt_none.mp has
    exact ⟨[], trivial, rfl, rfl⟩
  | some as =>
    obtain ⟨b, hb, hread⟩ := derives_iff.mp (derives_opt_some.mp has)
    obtain rfl := List.mem_singleton.mp hb
    obtain ⟨x, _, rfl, u, a, _, rfl, ha, v, as, _, rfl, hmore, y, _, rfl, rfl, rfl⟩ := hread
    simp only [List.forall_mem_cons, List.forall_mem_append] at hw
    simp only [List.length_cons, List.length_append] at hn
    obtain ⟨s, hs, rfl, rfl⟩ := h.argument (by omega) hw.2.1 ha
    obtain ⟨ss, hss, rfl, rfl⟩ := h.moreArguments (by omega) hw.2.2.1 hmore
    rw [eq_markLexeme hw.1, eq_markLexeme hw.2.2.2.1]
    exact ⟨s :: ss, ⟨hs, hss⟩, rfl, rfl⟩

theorem part {v : Text × List TypeArgument} (h : WrittenBelow n) (hn : u.length ≤ n)
    (hu : ∀ l ∈ u, Readable l) (hv : classTypePart.Derives u v) :
    ∃ x ss, IsIdentifier x ∧ WrittenArgument.AllNamed ss ∧
      u = nameLexeme x :: inAngles (WrittenArgument.lexemesOf ss) ∧
      v = (x, WrittenArgument.valuesOf ss) := by
  obtain ⟨b, hb, hread⟩ := derives_iff.mp hv
  obtain rfl := List.mem_singleton.mp hb
  obtain ⟨x, u, rfl, hlast⟩ := hread
  obtain ⟨as, has, rfl⟩ := Grammar.readsBy_last.mp hlast
  rw [List.forall_mem_cons] at hu
  obtain ⟨ss, hss, rfl, hvalues⟩ := h.arguments (by simp at hn; omega) hu.2 has
  exact ⟨x, ss, hu.1.isTextOf, hss, rfl, congrArg (x, ·) hvalues⟩

theorem parts {v : Text × List TypeArgument} {vs : List (Text × List TypeArgument)}
    (h : WrittenBelow n) (hn : (u ++ w).length ≤ n) (hu : ∀ l ∈ u ++ w, Readable l)
    (hv : classTypePart.Derives u v)
    (hvs : (many (after (.mark .dot) classTypePart)).Derives w vs) :
    ∃ c : WrittenClass, c.IsNamed ∧ u ++ w = c.lexemes ∧ v :: vs = c.parts := by
  induction vs generalizing u v w with
  | nil =>
    obtain rfl := derives_many_nil.mp hvs
    rw [List.append_nil] at hn hu ⊢
    obtain ⟨x, ss, hx, hss, rfl, rfl⟩ := h.part hn hu hv
    exact ⟨.last x ss, ⟨hx, hss⟩, rfl, rfl⟩
  | cons v' vs ih =>
    obtain ⟨_, w, rfl, hnext, hmore⟩ := derives_many_cons.mp hvs
    obtain ⟨y, u', rfl, hv'⟩ := derives_after.mp hnext
    simp only [List.cons_append, List.length_append, List.length_cons] at hn
    simp only [List.cons_append, List.forall_mem_append, List.forall_mem_cons] at hu
    obtain ⟨x, ss, hx, hss, rfl, rfl⟩ := h.part (by omega) hu.1 hv
    obtain ⟨c, hc, hlexemes, hparts⟩ := ih (by rw [List.length_append]; omega)
      (List.forall_mem_append.mpr hu.2.2) hv' hmore
    rw [eq_markLexeme hu.2.1, List.cons_append, List.cons_append, hlexemes, hparts]
    exact ⟨.part x ss c, ⟨hx, hss, hc⟩, rfl, rfl⟩

end WrittenBelow

/-- Lexemes that derive a type are a type as it is written. -/
theorem exists_written {v : TypeExpr} (hw : ∀ l ∈ w, Readable l) (h : type.Derives w v) :
    ∃ s : WrittenType, s.IsNamed ∧ w = s.lexemes ∧ v = s.value := by
  induction hn : w.length using Nat.strongRecOn generalizing w v with
  | _ n ih =>
    have hbelow : WrittenBelow n := fun u t hlt hu ht => ih u.length hlt hu ht rfl
    obtain ⟨b, hb, hread⟩ := derives_iff.mp h
    simp only [alternatives, typeAlternatives, List.mem_cons, List.not_mem_nil, or_false] at hb
    rcases hb with rfl | rfl
    · obtain ⟨u, p, w, rfl, hp, hlast⟩ := hread
      obtain ⟨k, hk, rfl⟩ := Grammar.readsBy_last.mp hlast
      rw [List.forall_mem_append] at hw
      rw [eq_primitive hw.1 hp, eq_brackets hw.2 hk]
      exact ⟨.primitive p k, trivial, rfl, rfl⟩
    · obtain ⟨u, c, w, rfl, hc, hlast⟩ := hread
      obtain ⟨k, hk, rfl⟩ := Grammar.readsBy_last.mp hlast
      rw [List.forall_mem_append] at hw
      obtain ⟨b, hb, hread⟩ := derives_iff.mp hc
      obtain rfl := List.mem_singleton.mp hb
      obtain ⟨u, v, u', rfl, hv, hlast⟩ := hread
      obtain ⟨vs, hvs, rfl⟩ := Grammar.readsBy_last.mp hlast
      obtain ⟨c, hc, hlexemes, hparts⟩ := hbelow.parts
        (by simp only [List.length_append] at hn ⊢; omega) hw.1 hv hvs
      rw [eq_brackets hw.2 hk, hlexemes]
      exact ⟨.reference c k, hc, rfl, by rw [WrittenType.value, ← hparts]⟩

theorem readable_brackets (k : Nat) : ∀ l ∈ brackets k, Readable l := by
  induction k with
  | zero => simp [brackets]
  | succ k ih =>
    simp only [brackets, List.forall_mem_cons]
    exact ⟨readable_mark _, readable_mark _, ih⟩

theorem readable_flatMap {us : List (List Lexeme)} (m : Mark) (h : ∀ u ∈ us, ∀ l ∈ u, Readable l) :
    ∀ l ∈ us.flatMap (markLexeme m :: ·), Readable l := by
  simp only [List.mem_flatMap, List.mem_cons]
  rintro l ⟨v, hv, rfl | hl⟩
  · exact readable_mark _
  · exact h v hv l hl

theorem readable_inAngles {us : List (List Lexeme)} (h : ∀ u ∈ us, ∀ l ∈ u, Readable l) :
    ∀ l ∈ inAngles us, Readable l := by
  cases us with
  | nil => simp [inAngles]
  | cons u us =>
    rw [List.forall_mem_cons] at h
    simp only [inAngles, List.forall_mem_cons, List.forall_mem_append]
    exact ⟨readable_mark _, h.1, readable_flatMap _ h.2, readable_mark _, by simp⟩

mutual

theorem WrittenType.readable : (s : WrittenType) → s.IsNamed → ∀ l ∈ s.lexemes, Readable l
  | .primitive p k, _ => by
    rw [WrittenType.lexemes, List.forall_mem_cons]
    exact ⟨readable_keyword _, readable_brackets k⟩
  | .reference c k, h => by
    rw [WrittenType.lexemes, List.forall_mem_append]
    exact ⟨c.readable h, readable_brackets k⟩

theorem WrittenClass.readable : (c : WrittenClass) → c.IsNamed → ∀ l ∈ c.lexemes, Readable l
  | .last x as, h => by
    rw [WrittenClass.lexemes, List.forall_mem_cons]
    exact ⟨readable_name h.1, readable_inAngles (WrittenArgument.forall_readable as h.2)⟩
  | .part x as rest, h => by
    simp only [WrittenClass.lexemes, List.forall_mem_cons, List.forall_mem_append]
    exact ⟨readable_name h.1, readable_inAngles (WrittenArgument.forall_readable as h.2.1),
      readable_mark _, rest.readable h.2.2⟩

theorem WrittenArgument.readable :
    (a : WrittenArgument) → a.IsNamed → ∀ l ∈ a.lexemes, Readable l
  | .type t, h => t.readable h
  | .any, _ => by simpa [WrittenArgument.lexemes] using readable_mark _
  | .extending t, h => by
    simp only [WrittenArgument.lexemes, List.forall_mem_cons]
    exact ⟨readable_mark _, readable_keyword _, t.readable h⟩
  | .superOf t, h => by
    simp only [WrittenArgument.lexemes, List.forall_mem_cons]
    exact ⟨readable_mark _, readable_keyword _, t.readable h⟩

theorem WrittenArgument.forall_readable : (as : List WrittenArgument) →
    WrittenArgument.AllNamed as → ∀ u ∈ WrittenArgument.lexemesOf as, ∀ l ∈ u, Readable l
  | [], _ => by simp [WrittenArgument.lexemesOf]
  | a :: as, h => by
    rw [WrittenArgument.lexemesOf, List.forall_mem_cons]
    exact ⟨a.readable h.1, WrittenArgument.forall_readable as h.2⟩

end

/-- The lexemes that can be read and derive a type, with their values. -/
theorem type_image_iff {x : Ebnf.Item} :
    (∀ l ∈ w, Readable l) ∧ Ebnf.Rule.type.Image w x ↔
      ∃ s : WrittenType, s.IsNamed ∧ w = s.lexemes ∧ x = .ofTypeExpr s.value := by
  constructor
  · rintro ⟨hw, h⟩
    obtain ⟨v, hv, rfl⟩ := h.means
    obtain ⟨s, hs, hlexemes, rfl⟩ := exists_written hw hv
    exact ⟨s, hs, hlexemes, rfl⟩
  · rintro ⟨s, hs, rfl, rfl⟩
    exact ⟨s.readable hs, type_image s⟩

/-- No list of arguments has a dot after it. -/
def ArgumentsLast (w : List Lexeme) : Prop :=
  ¬ [Terminal.mark .greater, .mark .dot] <:+: w.map (·.terminal)

theorem ArgumentsLast.of_infix (h : ArgumentsLast w) (hu : u <:+: w) : ArgumentsLast u :=
  fun hi => h (hi.trans (hu.map _))

theorem infix_inAngles {us : List (List Lexeme)} (hu : u ∈ us) : u <:+: inAngles us := by
  cases us with
  | nil => cases hu
  | cons v us =>
    rcases List.mem_cons.mp hu with rfl | hu
    · exact ⟨[_], _, rfl⟩
    · have hmore : markLexeme .comma :: u <:+: us.flatMap (markLexeme .comma :: ·) := by
        rw [List.flatMap_def]
        exact List.infix_of_mem_flatten (List.mem_map_of_mem hu)
      have hafter : us.flatMap (markLexeme .comma :: ·) <:+: inAngles (v :: us) :=
        ⟨markLexeme .less :: v, [markLexeme .greater], by simp [inAngles]⟩
      exact (List.suffix_cons _ u).isInfix.trans (hmore.trans hafter)

theorem not_argumentsLast {v : List Lexeme} {us : List (List Lexeme)} :
    ¬ ArgumentsLast (t ++ (inAngles (v :: us) ++ markLexeme .dot :: w)) := by
  have hdot : [markLexeme .greater, markLexeme .dot] <:+:
      t ++ (inAngles (v :: us) ++ markLexeme .dot :: w) :=
    ⟨t ++ markLexeme .less :: (v ++ us.flatMap (markLexeme .comma :: ·)), w, by simp [inAngles]⟩
  exact fun h => h (hdot.map Lexeme.terminal)

theorem laterArguments_nil {A : Type} (as : List A) : laterArguments [] as = as := by
  cases as <;> rfl

mutual

/-- Where no list of arguments has a dot after it, all are kept where they are. -/
theorem WrittenType.kept_eq : (s : WrittenType) → ArgumentsLast s.lexemes → s.kept = s
  | .primitive _ _, _ => rfl
  | .reference c k, h => by
    rw [WrittenType.kept, c.kept_eq (h.of_infix (List.prefix_append _ _).isInfix)]

theorem WrittenClass.kept_eq : (c : WrittenClass) → ArgumentsLast c.lexemes → c.kept [] = c
  | .last x as, h => by
    have has := WrittenArgument.keptOf_eq as fun u hu =>
      h.of_infix ((infix_inAngles hu).trans (List.suffix_cons _ _).isInfix)
    rw [WrittenClass.kept, has, laterArguments_nil]
  | .part x [] rest, h => by
    have hrest := rest.kept_eq (h.of_infix ⟨[nameLexeme x, markLexeme .dot], [], by
      simp [WrittenClass.lexemes, WrittenArgument.lexemesOf, inAngles]⟩)
    rw [WrittenClass.kept, WrittenArgument.keptOf, laterArguments_nil, hrest]
  | .part x (a :: as) rest, h => absurd h (not_argumentsLast (t := [nameLexeme x]))

theorem WrittenArgument.kept_eq : (a : WrittenArgument) → ArgumentsLast a.lexemes → a.kept = a
  | .type t, h => congrArg WrittenArgument.type (t.kept_eq h)
  | .any, _ => rfl
  | .extending t, h => congrArg WrittenArgument.extending
      (t.kept_eq (h.of_infix ⟨[markLexeme .question, keywordLexeme .extends_], [], by
        simp [WrittenArgument.lexemes]⟩))
  | .superOf t, h => congrArg WrittenArgument.superOf
      (t.kept_eq (h.of_infix ⟨[markLexeme .question, keywordLexeme .super], [], by
        simp [WrittenArgument.lexemes]⟩))

theorem WrittenArgument.keptOf_eq : (as : List WrittenArgument) →
    (∀ u ∈ WrittenArgument.lexemesOf as, ArgumentsLast u) → WrittenArgument.keptOf as = as
  | [], _ => rfl
  | a :: as, h => by
    rw [WrittenArgument.lexemesOf, List.forall_mem_cons] at h
    rw [WrittenArgument.keptOf, a.kept_eq h.1, WrittenArgument.keptOf_eq as h.2]

end

/-- Types with the same value are written alike, up to the arguments that are not the last of their
class and the places of those that are. If no arguments have a dot after them, the types are the
same. -/
theorem type_read_off {w' : List Lexeme} {x : Ebnf.Item} (hw : ∀ l ∈ w, Readable l)
    (hw' : ∀ l ∈ w', Readable l) (h : Ebnf.Rule.type.Image w x) (h' : Ebnf.Rule.type.Image w' x) :
    (∃ s s' : WrittenType, (s.IsNamed ∧ w = s.lexemes) ∧ s'.IsNamed ∧ w' = s'.lexemes) ∧
    (∀ s s' : WrittenType, s.IsNamed ∧ w = s.lexemes → s'.IsNamed ∧ w' = s'.lexemes →
      s.kept = s'.kept) ∧
    (ArgumentsLast w → ArgumentsLast w' → w = w') := by
  obtain ⟨s, hs, hlexemes, hx⟩ := type_image_iff.mp ⟨hw, h⟩
  obtain ⟨s', hs', hlexemes', hx'⟩ := type_image_iff.mp ⟨hw', h'⟩
  have hkept : ∀ s s' : WrittenType, s.IsNamed ∧ w = s.lexemes → s'.IsNamed ∧ w' = s'.lexemes →
      s.kept = s'.kept := by
    rintro s s' ⟨hs, rfl⟩ ⟨hs', rfl⟩
    have hvalue : Ebnf.Item.ofTypeExpr s.value = .ofTypeExpr s'.value :=
      (WrittenType.eq_of_image h).symm.trans (WrittenType.eq_of_image h')
    have hvalue : s.value = s'.value := by simpa [Ebnf.Item.ofTypeExpr] using hvalue
    rw [← s.ofValue_value hs, hvalue, s'.ofValue_value hs']
  refine ⟨⟨s, s', ⟨hs, hlexemes⟩, hs', hlexemes'⟩, hkept, fun hlast hlast' => ?_⟩
  have he := hkept s s' ⟨hs, hlexemes⟩ ⟨hs', hlexemes'⟩
  rw [s.kept_eq (hlexemes ▸ hlast), s'.kept_eq (hlexemes' ▸ hlast')] at he
  rw [hlexemes, hlexemes', he]

/-- A class in a class in a package, with arguments for each. -/
def nestedType (outer inner : List WrittenArgument) : WrittenType :=
  .reference (.part "a" [] (.part "Outer" outer (.last "Inner" inner))) 0

def namedArgument (x : Text) : WrittenArgument := .type (.reference (.last x []) 0)

theorem isNamed_nestedType :
    (nestedType [namedArgument "K"] []).IsNamed ∧ (nestedType [] [namedArgument "K"]).IsNamed ∧
      (nestedType [namedArgument "K"] [namedArgument "V"]).IsNamed ∧
      (nestedType [] [namedArgument "V"]).IsNamed := by
  have ha : IsIdentifier "a" ∧ IsIdentifier "Outer" ∧ IsIdentifier "Inner" := by decide
  have hk : IsIdentifier "K" ∧ IsIdentifier "V" := by decide
  simp [nestedType, namedArgument, WrittenType.IsNamed, WrittenClass.IsNamed,
    WrittenArgument.AllNamed, WrittenArgument.IsNamed, ha, hk]

theorem type_read_off_nested :
    (∀ l ∈ (nestedType [namedArgument "K"] []).lexemes, Readable l) ∧
    (∀ l ∈ (nestedType [] [namedArgument "K"]).lexemes, Readable l) ∧
    ∃ x, Ebnf.Rule.type.Image (nestedType [namedArgument "K"] []).lexemes x ∧
      Ebnf.Rule.type.Image (nestedType [] [namedArgument "K"]).lexemes x ∧
      (nestedType [namedArgument "K"] []).kept = (nestedType [] [namedArgument "K"]).kept := by
  obtain ⟨hs, hs', -⟩ := isNamed_nestedType
  have hw := WrittenType.readable _ hs
  have hw' := WrittenType.readable _ hs'
  have h := type_image (nestedType [namedArgument "K"] [])
  have h' := type_image (nestedType [] [namedArgument "K"])
  exact ⟨hw, hw', _, h, h', (type_read_off hw hw' h h').2.1 _ _ ⟨hs, rfl⟩ ⟨hs', rfl⟩⟩

/-- The value tells neither after which part the arguments of a class type are nor, if there are
arguments after several parts, what those before the last ones are. -/
theorem nestedType_ambiguous :
    (∀ s ∈ [nestedType [namedArgument "K"] [], nestedType [] [namedArgument "K"],
        nestedType [namedArgument "K"] [namedArgument "V"], nestedType [] [namedArgument "V"]],
      ∀ l ∈ s.lexemes, Readable l) ∧
    (∃ x, Ebnf.Rule.type.Image (nestedType [namedArgument "K"] []).lexemes x ∧
      Ebnf.Rule.type.Image (nestedType [] [namedArgument "K"]).lexemes x) ∧
    (nestedType [namedArgument "K"] []).lexemes ≠ (nestedType [] [namedArgument "K"]).lexemes ∧
    (∃ x, Ebnf.Rule.type.Image
        (nestedType [namedArgument "K"] [namedArgument "V"]).lexemes x ∧
      Ebnf.Rule.type.Image (nestedType [] [namedArgument "V"]).lexemes x) ∧
    (nestedType [namedArgument "K"] [namedArgument "V"]).lexemes ≠
      (nestedType [] [namedArgument "V"]).lexemes := by
  obtain ⟨h₁, h₂, h₃, h₄⟩ := isNamed_nestedType
  refine ⟨?_, ⟨_, type_image _, type_image (nestedType [] [namedArgument "K"])⟩, by decide,
    ⟨_, type_image _, type_image (nestedType [] [namedArgument "V"])⟩, by decide⟩
  simp only [List.forall_mem_cons]
  exact ⟨WrittenType.readable _ h₁, WrittenType.readable _ h₂, WrittenType.readable _ h₃,
    WrittenType.readable _ h₄, by simp⟩

end MemberAccess.Java
