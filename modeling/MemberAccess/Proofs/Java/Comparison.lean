import MemberAccess.Proofs.Java.Coverage
import MemberAccess.Proofs.Java.Precedence

/-!
# Declarations that are comparisons

The lexemes of `a < b > c` declare a variable `c` of a type with one argument, and they compare `a`,
`b` and `c`. They have no other reading as either.
-/

namespace MemberAccess.Java

/-- Identifiers with dots between them. -/
structure DottedName where
  first : Text
  rest : List Text

namespace DottedName

def text (q : DottedName) : Text := Text.join "." (q.first :: q.rest)

/-- The name as an expression: fields of a variable. -/
def expr (q : DottedName) : Expr :=
  q.rest.foldl (fun e x => .place (.field e x)) (.named q.first)

inductive Covers : DottedName → List Lexeme → Prop where
  | one (x : Text) : Covers ⟨x, []⟩ [⟨.identifier, x⟩]
  | more (x d : Text) {y : Text} {ys : List Text} {w : List Lexeme} : Covers ⟨y, ys⟩ w →
    Covers ⟨x, y :: ys⟩ (⟨.identifier, x⟩ :: ⟨.mark .dot, d⟩ :: w)

end DottedName

namespace Nonterminal
variable {q : DottedName} {n : Nonterminal} {w t : List Lexeme}

theorem simpleName_derives {x : Text} (h : simpleName.Derives w x) : w = [⟨.identifier, x⟩] := by
  obtain ⟨a, ha, h⟩ := derives_iff.mp h
  obtain rfl := List.mem_singleton.mp ha
  obtain ⟨y, _, rfl, rfl, rfl⟩ := h
  rfl

theorem covers_of_many {x : Text} {xs : List Text}
    (h : (many (after (.mark .dot) simpleName)).Derives w xs) :
    DottedName.Covers ⟨x, xs⟩ (⟨.identifier, x⟩ :: w) := by
  induction xs generalizing x w with
  | nil =>
    obtain rfl := derives_many_nil.mp h
    exact .one x
  | cons y ys ih =>
    obtain ⟨u, t, rfl, hu, ht⟩ := derives_many_cons.mp h
    obtain ⟨d, v, rfl, hv⟩ := derives_after.mp hu
    obtain rfl := simpleName_derives hv
    exact .more x d (ih ht)

theorem exists_dottedName (h : grammar.Is name w) : ∃ q : DottedName, q.Covers w := by
  obtain ⟨v, h⟩ := h
  obtain ⟨a, ha, h⟩ := derives_iff.mp h
  obtain rfl := List.mem_singleton.mp ha
  obtain ⟨x, _, rfl, u, xs, _, rfl, hu, rfl, -⟩ := h
  rw [List.append_nil]
  exact ⟨⟨x, xs⟩, covers_of_many hu⟩

theorem classTypePart_of_arguments {x : Text} {as : Option (List TypeArgument)}
    (h : (opt typeArguments).Derives t as) :
    classTypePart.Derives (⟨.identifier, x⟩ :: t) (x, as.getD []) :=
  .intro (.head _) (.take (.last h rfl))

/-- The parts of a type with a dotted name and the arguments at its end. -/
theorem exists_parts {as : Option (List TypeArgument)} (hq : q.Covers w)
    (ht : (opt typeArguments).Derives t as) :
    ∃ u v part parts, w ++ t = u ++ v ∧ classTypePart.Derives u part ∧
      (many (after (.mark .dot) classTypePart)).Derives v parts ∧
      (part :: parts).map Prod.fst = q.first :: q.rest ∧
      (part :: parts).foldl (fun found part => if part.2.isEmpty then found else part.2) [] =
        as.getD [] := by
  induction hq with
  | one x =>
    refine ⟨_, [], _, [], (List.append_nil _).symm, classTypePart_of_arguments ht, .nil, rfl, ?_⟩
    cases as.getD [] <;> rfl
  | more x d _ ih =>
    obtain ⟨u, v, part, parts, he, hu, hv, hnames, hargs⟩ := ih
    refine ⟨[⟨.identifier, x⟩], _, _, part :: parts, ?_,
      classTypePart_of_arguments (derives_opt_none.mpr rfl),
      .cons (derives_after.mpr ⟨d, u, rfl, hu⟩) hv, congrArg (x :: ·) hnames, hargs⟩
    simp [he]

theorem classType_of_covers {as : Option (List TypeArgument)} (hq : q.Covers w)
    (ht : (opt typeArguments).Derives t as) :
    classType.Derives (w ++ t) (.mk q.text (as.getD [])) := by
  obtain ⟨u, v, part, parts, he, hu, hv, hnames, hargs⟩ := exists_parts hq ht
  have hc : ClassType.ofParts (part :: parts) = .mk q.text (as.getD []) := by
    rw [ClassType.ofParts, hnames, hargs, DottedName.text]
  rw [he, ← hc]
  exact .intro (.head _) (.node hu (.last hv rfl))

theorem type_of_covers {as : Option (List TypeArgument)} (hq : q.Covers w)
    (ht : (opt typeArguments).Derives t as) :
    type.Derives (w ++ t) (.reference (.mk q.text (as.getD [])) 0) := by
  rw [← List.append_nil (w ++ t)]
  exact .intro (.tail _ (.head _))
    (.node (classType_of_covers hq ht) (.last (derives_dimensions_zero.mpr rfl) rfl))

theorem selections_of_covers {x : Text} {xs : List Text} (h : DottedName.Covers ⟨x, xs⟩ w) :
    ∃ t, w = ⟨.identifier, x⟩ :: t ∧
      selections.Derives t fun e => xs.foldl (fun e x => .place (.field e x)) e := by
  generalize hq : DottedName.mk x xs = q at h
  induction h generalizing x xs with
  | one x =>
    cases hq
    exact ⟨[], rfl, selections_nil⟩
  | more x d _ ih =>
    cases hq
    obtain ⟨t, rfl, ht⟩ := ih rfl
    exact ⟨_, rfl, .intro (.head _) (.skip (.take (.last ht rfl)))⟩

theorem primary_of_covers (h : q.Covers w) : primary.Derives w q.expr := by
  obtain ⟨t, rfl, ht⟩ := selections_of_covers h
  exact derives_primary.mpr (.inl ⟨_, t, _, rfl, ht, rfl⟩)

end Nonterminal

/-- The declaration that the lexemes `q₁ < q₂ > x` are. -/
def angleDeclaration (q₁ q₂ : DottedName) (x : Text) : BlockStatement :=
  .declaration [] (.reference (.mk q₁.text [.type (.reference (.mk q₂.text []) 0)]) 0) [⟨x, 0, none⟩]

def angleComparison (q₁ q₂ : DottedName) (x : Text) : Expr :=
  .binary .greater (.binary .less q₁.expr q₂.expr) (.named x)

/-- The lexemes `q₁ < q₂ > x`. -/
def IsAngleRun (w : List Lexeme) (q₁ q₂ : DottedName) (x : Text) : Prop :=
  ∃ u₁ l u₂ g, q₁.Covers u₁ ∧ q₂.Covers u₂ ∧
    w = u₁ ++ ⟨.mark .less, l⟩ :: (u₂ ++ [⟨.mark .greater, g⟩, ⟨.identifier, x⟩])

namespace Nonterminal
variable {w : List Lexeme} {q₁ q₂ : DottedName} {x : Text}

theorem exists_angleRun (h : IsAngles w) : ∃ q₁ q₂ x, IsAngleRun w q₁ q₂ x := by
  obtain ⟨u₁, l, u₂, g, x, h₁, h₂, rfl⟩ := h
  obtain ⟨q₁, hq₁⟩ := exists_dottedName h₁
  obtain ⟨q₂, hq₂⟩ := exists_dottedName h₂
  exact ⟨q₁, q₂, x, u₁, l, u₂, g, hq₁, hq₂, rfl⟩

theorem declaration_of_angleRun (h : IsAngleRun w q₁ q₂ x) :
    declaration.Derives w (angleDeclaration q₁ q₂ x) := by
  obtain ⟨u₁, l, u₂, g, h₁, h₂, rfl⟩ := h
  have harg : typeArgument.Derives (u₂ ++ []) (.type (.reference (.mk q₂.text []) 0)) :=
    .intro (.head _) (.last (type_of_covers h₂ (derives_opt_none.mpr rfl)) rfl)
  have hargs : (opt typeArguments).Derives (⟨.mark .less, l⟩ :: (u₂ ++ [⟨.mark .greater, g⟩]))
      (some [.type (.reference (.mk q₂.text []) 0)]) := by
    rw [List.append_nil] at harg
    exact derives_opt_some.mpr (.intro (.head _) (.skip (.node harg (.node (u := []) .nil
      (.skip (.nil _))))))
  have hx : declarator.Derives [⟨.identifier, x⟩] ⟨x, 0, none⟩ :=
    .intro (.head _) (.take (.node (u := []) (derives_dimensions_zero.mpr rfl)
      (.last (derives_opt_none.mpr rfl) rfl)))
  have hd : declaration.Derives ([] ++ ((u₁ ++ ⟨.mark .less, l⟩ :: (u₂ ++ [⟨.mark .greater, g⟩])) ++
      ([⟨.identifier, x⟩] ++ []))) (angleDeclaration q₁ q₂ x) :=
    .intro (.head _) (.node .nil (.node (type_of_covers h₁ hargs) (.node hx (.last .nil rfl))))
  simpa using hd

theorem expression_of_angleRun (h : IsAngleRun w q₁ q₂ x) :
    expression.Derives w (angleComparison q₁ q₂ x) := by
  obtain ⟨u₁, l, u₂, g, h₁, h₂, rfl⟩ := h
  have hless : (joined .relational).Derives (u₁ ++ ⟨.mark .less, l⟩ :: u₂)
      (.binary .less q₁.expr q₂.expr) :=
    joined_binary .less (joined_of_unary (unary_of_primary (primary_of_covers h₁)))
      (operand_of_unary (unary_of_primary (primary_of_covers h₂)))
  have hgreater : (joined .relational).Derives
      ((u₁ ++ ⟨.mark .less, l⟩ :: u₂) ++ ⟨.mark .greater, g⟩ :: [⟨.identifier, x⟩])
      (angleComparison q₁ q₂ x) :=
    joined_binary .greater hless (operand_of_unary (unary_name x))
  simpa using expression_of_joined hgreater

/-- Lexemes in which no such declaration is a statement of a block have one value. -/
theorem value_unique {n : Nonterminal} {v v' : n.Value} (hn : Ends .plain n [])
    (hs : startsStatement n = false) (hw : AngleFree w) (h : n.Derives w v)
    (h' : n.Derives w v') : v = v' := by
  have hstarts : Starts n (w ++ []) := fun hn => absurd hn (by simp [hs])
  have ha : Admits .plain n (w ++ []) [] := ⟨hn, by rwa [List.append_nil], hstarts⟩
  exact (Grammar.settled each_admits apart_admits h .plain w v' [] [] h' rfl ha ha).2

theorem angleFree_of_angleRun (h : IsAngleRun w q₁ q₂ x) {t : List Lexeme} (ht : AngleFree t) :
    AngleFree (w ++ t) :=
  .append_of_avoids (avoids_of_expression (expression_of_angleRun h)) ht

/-- As a declaration the lexemes have one value. -/
theorem eq_angleDeclaration {s : BlockStatement} (h : IsAngleRun w q₁ q₂ x)
    (hs : declaration.Derives w s) : s = angleDeclaration q₁ q₂ x :=
  value_unique (.of_heads (by decide) rfl (heads_nil _)) rfl
    (List.append_nil w ▸ angleFree_of_angleRun h angleFree_nil) hs (declaration_of_angleRun h)

theorem simpleStatement_of_angleRun {y : Text} (h : IsAngleRun w q₁ q₂ x) :
    simpleStatement.Derives (w ++ [⟨.mark .semicolon, y⟩])
      (.expression (angleComparison q₁ q₂ x)) :=
  .intro (.tail _ (.tail _ (.tail _ (.tail _ (.head _)))))
    (.node (expression_of_angleRun h) (.skip (.nil _)))

theorem eq_angleComparison {y : Text} {s : Statement} (h : IsAngleRun w q₁ q₂ x)
    (hs : simpleStatement.Derives (w ++ [⟨.mark .semicolon, y⟩]) s) :
    s = .expression (angleComparison q₁ q₂ x) :=
  value_unique (.of_heads (by decide) rfl (heads_nil _)) rfl
    (angleFree_of_angleRun h (.cons (by simp) angleFree_nil)) hs (simpleStatement_of_angleRun h)

end Nonterminal

end MemberAccess.Java
