import MemberAccess.Java.TypeName
import MemberAccess.Proofs.Java.Phrase

/-!
# Expressions as phrases
-/

namespace MemberAccess.Java

open Lexer

namespace Expr

abbrev named (x : Text) : Expr := .place (.named x)

abbrev null : Expr := .literal ⟨.null, "null"⟩

end Expr

namespace Nonterminal

variable {u w : List Lexeme} {e e' : Expr} {k : Expr → Expr}

theorem selections_nil : selections.Derives [] fun e => e :=
  .intro (.tail _ (.tail _ (.tail _ (.head _)))) (.nil _)

/-- A call of a method, whatever stands before it. -/
theorem selections_invoke {x : Text} {es : List Expr} (h : arguments.Derives w es) :
    selections.Derives (markLexeme .dot :: nameLexeme x :: w) fun e => .invoke e x es := by
  rw [← List.append_nil w]
  exact .intro (.tail _ (.head _)) (.skip (.take (.node h (.last selections_nil rfl))))

/-- A field, whatever stands before it. -/
theorem selections_field {x : Text} (h : selections.Derives w k) :
    selections.Derives (markLexeme .dot :: nameLexeme x :: w) fun e => k (.place (.field e x)) :=
  .intro (.head _) (.skip (.take (.last h rfl)))

theorem operators_nil (p : Precedence) : (operators p).Derives [] fun e => e :=
  derives_operators.mpr (.inr (.inr ⟨rfl, rfl⟩))

theorem conditionalTail_nil : conditionalTail.Derives [] fun e => e :=
  .intro (.tail _ (.head _)) (.nil _)

theorem operatorTail_of_conditionalTail (h : conditionalTail.Derives w k) :
    operatorTail.Derives w k :=
  derives_operatorTail.mpr ⟨[], _, [], _, [], _, [], _, [], _, [], _, w, k, rfl, operators_nil _,
    operators_nil _, operators_nil _, operators_nil _, operators_nil _, operators_nil _, h, rfl⟩

theorem unary_of_primary (h : primary.Derives w e) : unary.Derives w e :=
  .intro (.tail _ (.head _)) (.last (.intro (.head _) (.last h rfl)) rfl)

theorem joined_of_operand {p : Precedence} (h : (operand p).Derives w e) : (joined p).Derives w e :=
  derives_joined.mpr ⟨w, e, [], _, (List.append_nil w).symm, h, operators_nil p, rfl⟩

theorem operand_equality_of_unary (h : unary.Derives w e) : (operand .equality).Derives w e := by
  have h : (operand .multiplicative).Derives w e := derives_operand.mpr h
  have h : (operand .additive).Derives w e := derives_operand.mpr (joined_of_operand h)
  have h : (operand .relational).Derives w e := derives_operand.mpr (joined_of_operand h)
  exact derives_operand.mpr (joined_of_operand h)

/-- A comparison, whatever stands before it. -/
theorem operatorTail_equal (hu : unary.Derives u e') (hk : conditionalTail.Derives w k) :
    operatorTail.Derives (markLexeme .equalEqual :: (u ++ w))
      fun e => k (.binary .equal e e') := by
  have ho : (operators .equality).Derives (markLexeme .equalEqual :: (u ++ []))
      fun e => .binary .equal e e' :=
    derives_operators.mpr (.inl ⟨.equal, by decide, _, u, e', [], _, rfl,
      operand_equality_of_unary hu, operators_nil _, rfl⟩)
  rw [List.append_nil] at ho
  exact derives_operatorTail.mpr ⟨[], _, [], _, [], _, _, _, [], _, [], _, w, k, rfl,
    operators_nil _, operators_nil _, operators_nil _, ho, operators_nil _, operators_nil _, hk, rfl⟩

theorem conditional_of_unary (h : unary.Derives w e) : conditional.Derives w e :=
  derives_conditional.mpr ⟨w, e, [], _, (List.append_nil w).symm, h,
    operatorTail_of_conditionalTail conditionalTail_nil, rfl⟩

theorem expression_of_unary (h : unary.Derives w e) : expression.Derives w e :=
  expression_of_conditional (conditional_of_unary h)

theorem expression_of_primary_operators (hu : primary.Derives u e) (hk : operatorTail.Derives w k) :
    expression.Derives (u ++ w) (k e) :=
  expression_of_primary hu (operandTail_of_operatorTail hk)

/-- A type in parentheses before a primary expression is a cast. -/
theorem negationOrCast_of_type {t : TypeExpr} (ht : type.Derives u t) (h : primary.Derives w e) :
    negationOrCast.Derives
      (markLexeme .leftParenthesis :: (u ++ markLexeme .rightParenthesis :: w)) (.cast t e) := by
  rw [derives_iff] at ht
  simp only [alternatives, typeAlternatives, List.mem_cons, List.not_mem_nil, or_false,
    exists_eq_or_imp, exists_eq_left, Grammar.readsBy_node, Grammar.readsBy_last] at ht
  rcases ht with ⟨p, v, d, rfl, hp, n, hd, rfl⟩ | ⟨c, v, d, rfl, hc, n, hd, rfl⟩
  · rw [List.append_assoc]
    exact .intro (.tail _ (.head _))
      (.skip (.node hp (.node hd (.skip (.last (unary_of_primary h) rfl)))))
  · rw [List.append_assoc]
    exact .intro (.tail _ (.tail _ (.head _)))
      (.skip (.node hc (.node hd (.skip (.last (.intro (.head _) (.last h rfl)) rfl)))))

theorem primary_null : primary.Derives [keywordLexeme .null] .null :=
  primary_of_atom (.intro (.head _) (.last (.intro
    (.tail _ (.tail _ (.tail _ (.tail _ (.tail _ (.tail _ (.head _))))))) (.take (.nil _))) rfl))

theorem derives_arguments {us : List (List Lexeme)} {es : List Expr}
    (h : List.Forall₂ expression.Derives us es) :
    arguments.Derives
      (markLexeme .leftParenthesis :: (listed us ++ [markLexeme .rightParenthesis])) es := by
  cases h with
  | nil => exact .intro (.head _) (.skip (.skip (.nil _)))
  | cons hu hus =>
    rw [listed, List.append_assoc]
    exact .intro (.tail _ (.head _))
      (.skip (.node hu (.node (derives_separated .comma hus) (.skip (.nil _)))))

end Nonterminal

open Nonterminal

theorem worded_name {x : Text} (hx : IsIdentifier x) : Worded i x [nameLexeme x] := by
  simpa using Worded.name (t := []) hx rfl .nil

theorem unangled_listed {us : List (List Lexeme)} (h : ∀ u ∈ us, Unangled u) :
    Unangled (listed us) := by
  cases us with
  | nil => trivial
  | cons u us =>
    rw [List.forall_mem_cons] at h
    refine h.1.append ?_
    have hus := h.2
    clear h
    induction us with
    | nil => trivial
    | cons v us ih =>
      rw [List.forall_mem_cons] at hus
      exact ⟨by simp, hus.1.append (ih hus.2)⟩

section Quote
variable {i : Bool} {x : Text}

/-- The text can stand in a string literal, and be indented there if `i` holds. -/
structure Quotable (i : Bool) (x : Text) : Prop where
  noLineFeed : CodePoint.ofChar '\n' ∉ x
  isOneLine : i = true → ∀ c ∈ x, c.isLineBoundary = false

theorem Quotable.of_isOneLine (h : ∀ c ∈ x, c.isLineBoundary = false) : Quotable i x :=
  ⟨fun hm => absurd (h _ hm) (by decide), fun _ => h⟩

theorem Quotable.of_noLineFeed (h : CodePoint.ofChar '\n' ∉ x) : Quotable false x := ⟨h, nofun⟩

theorem isQuoted_quote (hx : CodePoint.ofChar '\n' ∉ x) : IsQuoted '"' (TypeName.quote x) := by
  refine ⟨x.flatMap TypeName.quotedChar ++ Text.ofString "\"", rfl, ?_⟩
  induction x with
  | nil => exact .mark
  | cons c x ih =>
    rw [List.mem_cons, not_or] at hx
    rw [List.flatMap_cons, TypeName.quotedChar]
    split
    · exact .escaped (by decide) (Ne.symm hx.1) (ih hx.2)
    · rename_i hc
      simp only [Bool.or_eq_true, decide_eq_true_eq, not_or] at hc
      exact .plain hc.2 (Ne.symm hx.1) hc.1 (ih hx.2)

theorem isLineBoundary_quote (hx : ∀ c ∈ x, c.isLineBoundary = false) :
    ∀ c ∈ TypeName.quote x, c.isLineBoundary = false := by
  have hquote : ∀ c ∈ Text.ofString "\"", c.isLineBoundary = false := by decide
  intro c hc
  simp only [TypeName.quote, List.mem_append, List.mem_flatMap] at hc
  rcases hc with (hc | ⟨d, hd, hc⟩) | hc
  · exact hquote c hc
  · rw [TypeName.quotedChar] at hc
    split at hc
    · simp only [List.mem_cons, List.not_mem_nil, or_false] at hc
      rcases hc with rfl | rfl
      · decide
      · exact hx c hd
    · obtain rfl := List.mem_singleton.mp hc
      exact hx c hd
  · exact hquote c hc

theorem balanced_quote (x : Text) : Balanced (TypeName.quote x) := by
  have hquote : ∀ c ∈ Text.ofString "\"", c ≠ '\\' := by decide
  refine .append (.append (.of_forall_ne hquote) ?_) (.of_forall_ne hquote)
  induction x with
  | nil => exact .nil
  | cons c x ih =>
    rw [List.flatMap_cons, TypeName.quotedChar]
    split
    · rename_i hc
      refine .pair ?_ ih
      rintro rfl
      exact absurd hc (by decide)
    · rename_i hc
      simp only [Bool.or_eq_true, decide_eq_true_eq, not_or] at hc
      exact .plain hc.1 ih

theorem clean_quote (hx : Quotable i x) : Clean i ⟨.string, TypeName.quote x⟩ :=
  ⟨by simp, balanced_quote x, fun hi => isLineBoundary_quote (hx.isOneLine hi)⟩

end Quote

namespace Phrase

variable {i : Bool} {x y z : Text} {e e' e'' : Expr} {xs : List Text} {es : List Expr}

theorem named (hx : IsIdentifier x) : Phrase i primary x (.named x) := by
  exact ⟨_, worded_name hx, derives_primary.mpr (.inl ⟨x, [], _, rfl, selections_nil, rfl⟩),
    .of_forall_ne (by simp)⟩

theorem expression_of_primary (h : Phrase i primary x e) : Phrase i expression x e := by
  obtain ⟨w, hw, hd, ha⟩ := h
  exact ⟨w, hw, expression_of_unary (unary_of_primary hd), ha⟩

theorem null : Phrase i primary "null" .null :=
  ⟨_, Fixed.null.worded, primary_null, .of_forall_ne (by decide)⟩

theorem true_ : Phrase i primary "true" (.literal ⟨.boolean, "true"⟩) :=
  ⟨_, Fixed.true_.worded,
    primary_of_atom (.intro (.head _) (.last (.intro
      (.tail _ (.tail _ (.head _))) (.take (.nil _))) rfl)),
    .of_forall_ne (by decide)⟩

/-- Expressions in parentheses with commas between them. -/
theorem exists_arguments (h : List.Forall₂ (Phrase i expression) xs es) :
    ∃ w, Worded i ("(" ++ Text.join ", " xs ++ ")") (markLexeme .leftParenthesis :: w) ∧
      arguments.Derives (markLexeme .leftParenthesis :: w) es ∧
      Unangled (markLexeme .leftParenthesis :: w) := by
  obtain ⟨us, hworded, hderives, hunangled⟩ : ∃ us, List.Forall₂ (Worded i) xs us ∧
      List.Forall₂ expression.Derives us es ∧ ∀ u ∈ us, Unangled u := by
    induction h with
    | nil => exact ⟨[], .nil, .nil, by simp⟩
    | cons hx _ ih =>
      obtain ⟨u, hu, hdu, hau⟩ := hx
      obtain ⟨us, hus, hdus, haus⟩ := ih
      exact ⟨u :: us, .cons hu hus, .cons hdu hdus, List.forall_mem_cons.mpr ⟨hau, haus⟩⟩
  exact ⟨_, by simpa using Worded.parenthesized hworded .nil, derives_arguments hderives,
    by simp, (unangled_listed hunangled).append (.of_forall_ne (by simp))⟩

theorem beginsApart_arguments (xs : List Text) : BeginsApart ("(" ++ Text.join ", " xs ++ ")") := by
  rw [List.append_assoc]
  exact .append (by decide) _

theorem invoke (hx : IsIdentifier x) (hy : IsIdentifier y)
    (h : List.Forall₂ (Phrase i expression) xs es) :
    Phrase i primary (x ++ ("." ++ (y ++ ("(" ++ Text.join ", " xs ++ ")"))))
      (.invoke (.named x) y es) := by
  obtain ⟨w, hw, hd, ha⟩ := exists_arguments h
  exact ⟨_, .name hx (beginsWith_dot _) (.dot hy (beginsApart_arguments xs).isIdentifierPart hw),
    derives_primary.mpr (.inl ⟨x, _, _, rfl, selections_invoke hd, rfl⟩),
    by simp, by simp, by simp, ha⟩

theorem string (hx : Quotable i x) :
    Phrase i primary (TypeName.quote x) (.literal ⟨.string, TypeName.quote x⟩) := by
  have hworded := Worded.lexeme (t := []) (.string (isQuoted_quote hx.noLineFeed))
    (clean_quote hx) .nil
  rw [List.append_nil] at hworded
  exact ⟨_, hworded, primary_of_atom (.intro (.head _) (.last (.intro
    (.tail _ (.tail _ (.tail _ (.tail _ (.tail _ (.head _)))))) (.take (.nil _))) rfl)),
    .of_forall_ne (by simp)⟩

theorem primitiveClass (p : Primitive) :
    Phrase i primary (p.text ++ ".class") (.classLiteral (.type (.primitive p 0))) := by
  have hreads : ∀ p ∈ Primitive.all, ReadsAs (p.text ++ ".class")
      [keywordLexeme (.primitive p), markLexeme .dot, keywordLexeme .class_] := by decide +kernel
  have hresult : result.Derives [keywordLexeme (.primitive p)] (.type (.primitive p 0)) :=
    .intro (.head _) (.last (.intro (.head _) (.node (u := [keywordLexeme (.primitive p)])
      (.intro (List.mem_map.mpr ⟨p, p.mem_all, rfl⟩) (.skip (.nil _)))
      (.last (derives_dimensions_zero.mpr rfl) rfl))) rfl)
  exact ⟨_, .of_scan ⟨hreads p p.mem_all, by simp⟩,
    primary_of_atom (.intro (.tail _ (.head _)) (.node (u := [keywordLexeme (.primitive p)])
      hresult (.skip (.skip (.nil _))))),
    .of_forall_ne (by simp)⟩

theorem voidClass : Phrase i primary "void.class" (.classLiteral .void) :=
  ⟨_, Fixed.voidClass.worded,
    primary_of_atom (.intro (.tail _ (.head _)) (.node (u := [keywordLexeme .void])
      (.intro (.tail _ (.head _)) (.skip (.nil _))) (.skip (.skip (.nil _))))),
    .of_forall_ne (by decide)⟩

theorem forName (h : Phrase i primary x e) :
    Phrase i primary ("java.lang.Class.forName" ++ ("(" ++ Text.join ", " [x] ++ ")"))
      (.invoke (.place (.field (.place (.field (.named "java") "lang")) "Class")) "forName" [e]) := by
  obtain ⟨w, hw, hd, ha⟩ := exists_arguments (.cons h.expression_of_primary .nil)
  have hselections := selections_field (x := "lang")
    (selections_field (x := "Class") (selections_invoke (x := "forName") hd))
  exact ⟨_, Fixed.forName.worded.before (beginsApart_arguments [x]) hw,
    derives_primary.mpr (.inl ⟨"java", _, _, rfl, hselections, rfl⟩),
    .append (.of_forall_ne (by decide)) ha⟩

theorem equalNull (h : Phrase i primary x e) :
    Phrase i expression (x ++ " == null") (.binary .equal e .null) := by
  obtain ⟨u, hu, hd, ha⟩ := h
  have htail := operatorTail_equal (w := []) (unary_of_primary primary_null) conditionalTail_nil
  have hexpression := expression_of_primary_operators hd htail
  exact ⟨_, Fixed.equalNull.closing (by decide) hu, hexpression, ha.append (.of_forall_ne (by decide))⟩

theorem ifNull (hx : Phrase i primary x e) (hy : Phrase i expression y e') (hz : Phrase i primary z e'') :
    Phrase i expression (x ++ (" == null ? " ++ (y ++ (" : " ++ z))))
      (.conditional (.binary .equal e .null) e' e'') := by
  obtain ⟨u, hu, hdu, hau⟩ := hx
  obtain ⟨v, hv, hdv, hav⟩ := hy
  obtain ⟨w, hw, hdw, haw⟩ := hz
  have hconditional : conditionalTail.Derives
      (markLexeme .question :: (v ++ markLexeme .colon :: w)) fun c => .conditional c e' e'' :=
    .intro (.head _) (.skip (.node hdv (.skip (.last
      (conditional_of_unary (unary_of_primary hdw)) rfl))))
  have htail := operatorTail_equal (unary_of_primary primary_null) hconditional
  have hexpression := expression_of_primary_operators hdu htail
  have hworded := Fixed.ifNull.glue (by decide) hu (Fixed.colon.glue (by decide) hv hw)
  exact ⟨_, hworded, hexpression, hau.append (.append (.of_forall_ne (by decide))
    (hav.append (.append (.of_forall_ne (by decide)) haw)))⟩

theorem assign (hx : IsIdentifier x) (hy : Phrase i expression y e) :
    Phrase i expression (x ++ (" = " ++ y)) (.assign (.named x) e) := by
  obtain ⟨u, hu, hd, ha⟩ := hy
  have hworded := Fixed.equal.glue (by decide) (worded_name hx) hu
  exact ⟨_, hworded,
    .intro (.head _) (.take (.last (.intro (.head _) (.skip (.last hd rfl))) rfl)),
    .append (.of_forall_ne (by simp)) (.append (.of_forall_ne (by decide)) ha)⟩

theorem cast {t : TypeExpr} (hx : Clause i type x t) (hy : Phrase i primary y e) :
    Phrase i expression ("(" ++ (x ++ (") " ++ y))) (.cast t e) := by
  obtain ⟨u, hu, hdu, hau⟩ := hx
  obtain ⟨w, hw, hdw, haw⟩ := hy
  have hworded := Fixed.leftParenthesis.opening (by decide)
    (Fixed.rightParenthesis.glue (by decide) hu hw)
  exact ⟨_, hworded, expression_of_unary (.intro (.tail _ (.head _)) (.last (.intro (.tail _ (.head _))
      (.last (negationOrCast_of_type hdu hdw) rfl)) rfl)),
    .append (.of_forall_ne (by decide))
      (.append_of_guarded hau (.inl (by decide)) (by simp [Fixed.rightParenthesis])
        ⟨by simp, haw⟩)⟩

theorem new {c : ClassType} (hx : Clause i classType x c)
    (h : List.Forall₂ (Phrase i expression) xs es) :
    Phrase i primary ("new " ++ (x ++ ("(" ++ Text.join ", " xs ++ ")"))) (.new c es) := by
  obtain ⟨u, hu, hdu, hau⟩ := hx
  obtain ⟨w, hw, hdw, haw⟩ := exists_arguments h
  have hworded := Fixed.new.opening (by decide) (hu.before (beginsApart_arguments xs) hw)
  exact ⟨_, hworded, primary_of_atom (.intro (.tail _ (.tail _ (.tail _ (.tail _ (.head _)))))
      (.skip (.node (u := u) hdu (.last hdw rfl)))),
    .append (.of_forall_ne (by decide)) (.append_of_guarded hau (.inl (by decide)) (by simp) haw)⟩

end Phrase

end MemberAccess.Java
