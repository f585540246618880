import MemberAccess.Proofs.Java.Ast.WellFormed

/-!
# Sound trees

Which trees have sound objects: types always, the others if their parts do and they satisfy the
conditions on their kind that their constructors leave open.
-/

namespace MemberAccess.Java

open Json

theorem isSound_primitive (p : Primitive) : IsSound (primitiveObject p.text) := by
  refine isSound_node (fun hv => ?_) trivial (by simp)
  have hname : p.text = Text.ofString "void" := Json.string.inj (Option.some.inj hv.2)
  have hne : ∀ p ∈ Primitive.all, p.text ≠ Text.ofString "void" := by decide
  exact hne p (Primitive.mem_all p) hname

theorem isSound_arrayObject {element : Json} (h : IsSound element) (hk : element.IsOneOf elementKinds)
    (dimensions : Nat) :
    IsSound (arrayObject element dimensions) ∧ (arrayObject element dimensions).IsOneOf typeKinds := by
  cases dimensions with
  | zero =>
    obtain ⟨kind, hkind, hk⟩ := hk
    exact ⟨h, kind, List.mem_cons_of_mem _ hkind, hk⟩
  | succ n =>
    refine ⟨isSound_node (not_isVoid_node (by decide)) ⟨⟨n + 1, rfl, by omega⟩, element, rfl, hk⟩ ?_,
      _, List.mem_cons_self, isKind_node.mpr rfl⟩
    simp [h.isSoundMember]

theorem ClassType.isKind_toJson (c : ClassType) : c.toJson.IsKind "ClassType" := by
  cases c
  exact isKind_node.mpr rfl

mutual

theorem ClassType.isSound_toJson : ∀ c : ClassType, IsSound c.toJson
  | .mk name arguments => by
    refine isSound_node (not_isVoid_node (by decide)) trivial ?_
    simp only [List.forall_mem_cons, isSoundMember_string, true_and]
    exact ⟨isSound_typeArgumentsJson arguments, List.forall_mem_nil _⟩

theorem TypeArgument.isSound_toJson : ∀ a : TypeArgument, IsSound a.toJson
  | .type t => by
    refine isSound_node (not_isVoid_node (by decide))
      (.inr ⟨⟨_, rfl, t.isSound_toJson.2⟩, List.mem_cons_self⟩) ?_
    simp [t.isSound_toJson.1.isSoundMember]
  | .any => by
    refine isSound_node (not_isVoid_node (by decide)) (.inl ⟨rfl, rfl⟩) ?_
    simp
  | .extending t => by
    refine isSound_node (not_isVoid_node (by decide))
      (.inr ⟨⟨_, rfl, t.isSound_toJson.2⟩, .tail _ (.head _)⟩) ?_
    simp [t.isSound_toJson.1.isSoundMember]
  | .superOf t => by
    refine isSound_node (not_isVoid_node (by decide))
      (.inr ⟨⟨_, rfl, t.isSound_toJson.2⟩, .tail _ (.tail _ (.head _))⟩) ?_
    simp [t.isSound_toJson.1.isSoundMember]

theorem TypeExpr.isSound_toJson : ∀ t : TypeExpr, IsSound t.toJson ∧ t.toJson.IsOneOf typeKinds
  | .primitive p dimensions =>
    isSound_arrayObject (isSound_primitive p)
      ⟨"PrimitiveType", by decide, isKind_node.mpr rfl⟩ dimensions
  | .reference c dimensions =>
    isSound_arrayObject c.isSound_toJson ⟨"ClassType", by decide, c.isKind_toJson⟩ dimensions

theorem isSound_typeArgumentsJson : ∀ as : List TypeArgument, ∀ c ∈ typeArgumentsJson as, IsSound c
  | [] => by simp [typeArgumentsJson]
  | a :: rest => by
    rw [typeArgumentsJson, List.forall_mem_cons]
    exact ⟨a.isSound_toJson, isSound_typeArgumentsJson rest⟩

end

theorem ResultType.everywhere_toJson (r : ResultType) : Everywhere IsSoundNode r.toJson := by
  cases r with
  | type t => exact t.isSound_toJson.1.everywhere
  | void =>
    have hm : ∀ m ∈ [("_type", Json.string "PrimitiveType"), ("name", .string "void")],
        IsSoundMember m.2 := by simp
    refine everywhere_object ⟨isRegularNode_node trivial, fun key c hc hv => ?_⟩
      fun m h c hc => (hm m h c hc).everywhere
    obtain ⟨v, h, hc⟩ := exists_member_of_mem_children hc
    exact absurd hv (hm _ h c hc).not_void

theorem ResultType.elements_toJson (r : ResultType) : r.toJson.elements = [r.toJson] := by
  cases r with
  | void => rfl
  | type t =>
    rw [ResultType.toJson]
    cases h : t.toJson with
    | array items => exact absurd h (t.isSound_toJson.1.not_array items)
    | _ => rfl

theorem TypeParameter.isSound_toJson (p : TypeParameter) : IsSound p.toJson := by
  refine isSound_node (not_isVoid_node (by decide))
    (hasList_map p.bounds rfl fun c _ => c.isKind_toJson) ?_
  simp [isSoundMember_ofList, ClassType.isSound_toJson]

theorem Modifier.isSound_toJson (m : Modifier) : IsSound m.toJson := by
  cases m with
  | keyword k =>
    exact isSound_node (not_isVoid_node (by decide)) (.inl ⟨⟨_, rfl⟩, rfl⟩) (by simp)
  | marker name =>
    have hmarker : IsSound (markerObject name) :=
      isSound_node (not_isVoid_node (by decide)) trivial (by simp)
    refine isSound_node (not_isVoid_node (by decide))
      (.inr ⟨rfl, _, rfl, "Annotation", List.mem_cons_self, isKind_node.mpr rfl⟩) ?_
    simp [hmarker.isSoundMember]

def Modifier.IsOfVariable : Modifier → Prop
  | keyword k => k = .final
  | marker _ => True

theorem hasFinals_of_forall {n : Json} {modifiers : List Modifier}
    (hn : n.member? "modifiers" = some (.ofList Modifier.toJson modifiers))
    (h : ∀ m ∈ modifiers, m.IsOfVariable) : HasFinals n := by
  intro c hc k hk
  rw [children, hn] at hc
  obtain ⟨m, hm, rfl⟩ := List.mem_map.mp hc
  have hv := h m hm
  cases m with
  | keyword k' =>
    obtain rfl : k' = .final := hv
    exact (Json.string.inj (Option.some.inj hk)).symm
  | marker name => cases hk

theorem FormalParameter.isSound_toJson (p : FormalParameter) (h : ∀ m ∈ p.modifiers, m.IsOfVariable) :
    IsSound p.toJson := by
  refine isSound_node (not_isVoid_node (by decide)) (hasFinals_of_forall rfl h) ?_
  simp [isSoundMember_ofList, Modifier.isSound_toJson, p.type.isSound_toJson.1.isSoundMember]

theorem exprsJson_eq_map (es : List Expr) : exprsJson es = es.map Expr.toJson := by
  induction es with
  | nil => rfl
  | cons e es ih => rw [exprsJson, ih, List.map_cons]

theorem Literal.isSound_toJson {l : Literal} (h : l.kind = .ofText l.text) : IsSound l.toJson := by
  refine isSound_node (not_isVoid_node (by decide)) ⟨l.text, rfl, ?_⟩ (by simp)
  rw [← h]
  rfl

theorem Place.isOneOf_toJson (p : Place) : p.toJson.IsOneOf placeKinds := by
  cases p with
  | named => exact ⟨"Identifier", by decide, isKind_node.mpr rfl⟩
  | field => exact ⟨"FieldAccess", by decide, isKind_node.mpr rfl⟩
  | element => exact ⟨"ArrayAccess", by decide, isKind_node.mpr rfl⟩

variable {e e' e'' : Expr} {es : List Expr} {p : Place}

theorem isSound_named (x : Text) : IsSound (Place.named x).toJson :=
  isSound_node (not_isVoid_node (by decide)) trivial (by simp)

theorem isSound_field (h : IsSound e.toJson) (x : Text) : IsSound (Place.field e x).toJson :=
  isSound_node (not_isVoid_node (by decide)) trivial (by simp [h.isSoundMember])

theorem isSound_element (h : IsSound e.toJson) (h' : IsSound e'.toJson) :
    IsSound (Place.element e e').toJson :=
  isSound_node (not_isVoid_node (by decide)) trivial (by simp [h.isSoundMember, h'.isSoundMember])

theorem isSoundMember_exprsJson (h : ∀ e ∈ es, IsSound e.toJson) :
    IsSoundMember (.array (exprsJson es)) := by
  rw [exprsJson_eq_map, isSoundMember_map]
  exact h

theorem isSound_this : IsSound Expr.this.toJson :=
  isSound_node (not_isVoid_node (by decide)) trivial (by simp)

/-- A class literal is the one expression in which `void` is sound. -/
theorem isSound_classLiteral (t : ResultType) : IsSound (Expr.classLiteral t).toJson := by
  have hkind := isSoundMember_string "ClassLiteral"
  refine ⟨everywhere_object ⟨isRegularNode_node trivial, fun key c hc hv => ?_⟩ ?_,
    not_isVoid_node (by decide), by simp [Expr.toJson, node]⟩
  · obtain ⟨v, hm, hc⟩ := exists_member_of_mem_children hc
    simp only [List.mem_cons, List.not_mem_nil, or_false, Prod.mk.injEq] at hm
    rcases hm with ⟨-, rfl⟩ | ⟨rfl, -⟩
    · exact absurd hv (hkind c hc).not_void
    · exact ⟨isKind_node.mpr rfl, rfl⟩
  · simp only [List.forall_mem_cons]
    refine ⟨fun c hc => (hkind c hc).everywhere, fun c hc => ?_, List.forall_mem_nil _⟩
    rw [t.elements_toJson, List.mem_singleton] at hc
    exact hc ▸ t.everywhere_toJson

theorem isSound_call (x : Text) (h : ∀ e ∈ es, IsSound e.toJson) : IsSound (Expr.call x es).toJson :=
  isSound_node (not_isVoid_node (by decide)) trivial (by simp [isSoundMember_exprsJson h])

theorem isSound_invoke (h : IsSound e.toJson) (x : Text) (hs : ∀ e ∈ es, IsSound e.toJson) :
    IsSound (Expr.invoke e x es).toJson :=
  isSound_node (not_isVoid_node (by decide)) trivial
    (by simp [h.isSoundMember, isSoundMember_exprsJson hs])

theorem isSound_new (c : ClassType) (h : ∀ e ∈ es, IsSound e.toJson) :
    IsSound (Expr.new c es).toJson :=
  isSound_node (not_isVoid_node (by decide))
    ⟨_, rfl, "ClassType", List.mem_cons_self, c.isKind_toJson⟩
    (by simp [c.isSound_toJson.isSoundMember, isSoundMember_exprsJson h])

theorem isSound_assign (hp : IsSound p.toJson) (h : IsSound e.toJson) :
    IsSound (Expr.assign p e).toJson :=
  isSound_node (not_isVoid_node (by decide)) ⟨_, rfl, p.isOneOf_toJson⟩
    (by simp [hp.isSoundMember, h.isSoundMember])

theorem isSound_binary (op : BinaryOp) (h : IsSound e.toJson) (h' : IsSound e'.toJson) :
    IsSound (Expr.binary op e e').toJson :=
  isSound_node (not_isVoid_node (by decide)) trivial (by simp [h.isSoundMember, h'.isSoundMember])

theorem isSound_unary (op : UnaryOp) (h : IsSound e.toJson) : IsSound (Expr.unary op e).toJson :=
  isSound_node (not_isVoid_node (by decide)) trivial (by simp [h.isSoundMember])

theorem isSound_cast (t : TypeExpr) (h : IsSound e.toJson) : IsSound (Expr.cast t e).toJson :=
  isSound_node (not_isVoid_node (by decide)) trivial
    (by simp [t.isSound_toJson.1.isSoundMember, h.isSoundMember])

theorem isSound_instanceOf (h : IsSound e.toJson) (t : TypeExpr) :
    IsSound (Expr.instanceOf e t).toJson :=
  isSound_node (not_isVoid_node (by decide)) trivial
    (by simp [t.isSound_toJson.1.isSoundMember, h.isSoundMember])

theorem isSound_conditional (h : IsSound e.toJson) (h' : IsSound e'.toJson)
    (h'' : IsSound e''.toJson) : IsSound (Expr.conditional e e' e'').toJson :=
  isSound_node (not_isVoid_node (by decide)) trivial
    (by simp [h.isSoundMember, h'.isSoundMember, h''.isSoundMember])

theorem Declarator.isSound_toJson (d : Declarator) (h : ∀ e ∈ d.initializer, IsSound e.toJson) :
    IsSound d.toJson :=
  isSound_node (not_isVoid_node (by decide)) trivial (by simp [isSoundMember_ofOption h])

theorem Block.isKind_toJson (b : Block) : b.toJson.IsKind "Block" := by
  cases b
  exact isKind_node.mpr rfl

theorem Statement.isOneOf_toJson (s : Statement) : s.toJson.IsOneOf statementKinds := by
  cases s with
  | block b => exact ⟨"Block", by decide, b.isKind_toJson⟩
  | expression => exact ⟨"ExpressionStatement", by decide, isKind_node.mpr rfl⟩
  | ifThen => exact ⟨"IfStatement", by decide, isKind_node.mpr rfl⟩
  | ifThenElse => exact ⟨"IfStatement", by decide, isKind_node.mpr rfl⟩
  | while_ => exact ⟨"WhileStatement", by decide, isKind_node.mpr rfl⟩
  | return_ => exact ⟨"ReturnStatement", by decide, isKind_node.mpr rfl⟩
  | throw_ => exact ⟨"ThrowStatement", by decide, isKind_node.mpr rfl⟩
  | try_ body catches final =>
    cases final <;> exact ⟨"TryStatement", by decide, isKind_node.mpr rfl⟩
  | empty => exact ⟨"EmptyStatement", by decide, isKind_node.mpr rfl⟩

theorem blockStatementsJson_eq_map (ss : List BlockStatement) :
    blockStatementsJson ss = ss.map BlockStatement.toJson := by
  induction ss with
  | nil => rfl
  | cons s ss ih => rw [blockStatementsJson, ih, List.map_cons]

theorem catchesJson_eq_map (cs : List CatchClause) :
    catchesJson cs = cs.map CatchClause.toJson := by
  induction cs with
  | nil => rfl
  | cons c cs ih => rw [catchesJson, ih, List.map_cons]

variable {s s' : Statement} {b b' : Block} {modifiers : List Modifier}

theorem isSound_block {ss : List BlockStatement} (h : ∀ s ∈ ss, IsSound s.toJson) :
    IsSound (Block.mk ss).toJson := by
  refine isSound_node (not_isVoid_node (by decide)) trivial ?_
  rw [List.forall_mem_singleton, blockStatementsJson_eq_map, isSoundMember_map]
  exact h

theorem isSound_expression (h : IsSound e.toJson) : IsSound (Statement.expression e).toJson :=
  isSound_node (not_isVoid_node (by decide)) trivial (by simp [h.isSoundMember])

theorem isSound_ifThen (h : IsSound e.toJson) (hs : IsSound s.toJson) :
    IsSound (Statement.ifThen e s).toJson :=
  isSound_node (not_isVoid_node (by decide)) ⟨⟨_, rfl, s.isOneOf_toJson⟩, .inl rfl⟩
    (by simp [h.isSoundMember, hs.isSoundMember])

theorem isSound_ifThenElse (h : IsSound e.toJson) (hs : IsSound s.toJson) (hs' : IsSound s'.toJson) :
    IsSound (Statement.ifThenElse e s s').toJson :=
  isSound_node (not_isVoid_node (by decide))
    ⟨⟨_, rfl, s.isOneOf_toJson⟩, .inr ⟨_, rfl, s'.isOneOf_toJson⟩⟩
    (by simp [h.isSoundMember, hs.isSoundMember, hs'.isSoundMember])

theorem isSound_while (h : IsSound e.toJson) (hs : IsSound s.toJson) :
    IsSound (Statement.while_ e s).toJson :=
  isSound_node (not_isVoid_node (by decide)) ⟨_, rfl, s.isOneOf_toJson⟩
    (by simp [h.isSoundMember, hs.isSoundMember])

theorem isSound_return {r : Option Expr} (h : ∀ e ∈ r, IsSound e.toJson) :
    IsSound (Statement.return_ r).toJson :=
  isSound_node (not_isVoid_node (by decide)) trivial (by simp [isSoundMember_ofOption h])

theorem isSound_throw (h : IsSound e.toJson) : IsSound (Statement.throw_ e).toJson :=
  isSound_node (not_isVoid_node (by decide)) trivial (by simp [h.isSoundMember])

theorem isSound_empty : IsSound Statement.empty.toJson :=
  isSound_node (not_isVoid_node (by decide)) trivial (by simp)

/-- A `try` needs something that takes over. -/
theorem isSound_try {catches : List CatchClause} {final : Option Block} (hb : IsSound b.toJson)
    (hc : ∀ c ∈ catches, IsSound c.toJson) (hf : ∀ b ∈ final, IsSound b.toJson)
    (hne : catches ≠ [] ∨ final.isSome) : IsSound (Statement.try_ b catches final).toJson := by
  have hcatches : IsSoundMember (.array (catchesJson catches)) := by
    rw [catchesJson_eq_map, isSoundMember_map]
    exact hc
  cases final with
  | none =>
    obtain ⟨c, cs, rfl⟩ := List.exists_cons_of_ne_nil (hne.resolve_right (by simp))
    exact isSound_node (not_isVoid_node (by decide)) (.inl ⟨_, _, rfl⟩)
      (by simp [hb.isSoundMember, hcatches])
  | some f =>
    exact isSound_node (not_isVoid_node (by decide))
      (.inr ⟨_, rfl, "Block", List.mem_cons_self, f.isKind_toJson⟩)
      (by simp [hb.isSoundMember, hcatches, (hf f rfl).isSoundMember])

theorem isSound_declaration {t : TypeExpr} {ds : List Declarator}
    (hm : ∀ m ∈ modifiers, m.IsOfVariable) (hd : ∀ d ∈ ds, IsSound d.toJson) (hne : ds ≠ []) :
    IsSound (BlockStatement.declaration modifiers t ds).toJson := by
  obtain ⟨d, ds, rfl⟩ := List.exists_cons_of_ne_nil hne
  refine isSound_node (not_isVoid_node (by decide)) ⟨hasFinals_of_forall rfl hm, _, _, rfl⟩ ?_
  simpa [isSoundMember_ofList, Modifier.isSound_toJson, t.isSound_toJson.1.isSoundMember] using hd

theorem isSound_catch {types : List ClassType} {x : Text} (hm : ∀ m ∈ modifiers, m.IsOfVariable)
    (hne : types ≠ []) (hb : IsSound b.toJson) :
    IsSound (CatchClause.mk modifiers types x b).toJson := by
  have htypes : (CatchClause.mk modifiers types x b).toJson.HasList "types" "ClassType" :=
    hasList_map types rfl fun c _ => c.isKind_toJson
  obtain ⟨c, cs, rfl⟩ := List.exists_cons_of_ne_nil hne
  refine isSound_node (not_isVoid_node (by decide))
    ⟨hasFinals_of_forall rfl hm, htypes, _, _, rfl⟩ ?_
  simp [isSoundMember_ofList, Modifier.isSound_toJson, ClassType.isSound_toJson, hb.isSoundMember]

/-- The result of a method is the one part of it that can be `void`. -/
theorem MethodDeclaration.isWellFormed_toJson (m : MethodDeclaration) (hname : m.name ≠ [])
    (hcontext : m.context = none) (hp : ∀ p ∈ m.parameters, IsSound p.toJson)
    (hb : ∀ b ∈ m.body, IsSound b.toJson) : IsWellFormed m.toJson := by
  obtain ⟨modifiers, typeParameters, result, name, parameters, throws, body, context⟩ := m
  obtain rfl : context = none := hcontext
  have hmembers : ∀ m ∈ [("_type", Json.string "MethodDeclaration"),
      ("modifiers", .ofList Modifier.toJson modifiers),
      ("type_parameters", .ofList TypeParameter.toJson typeParameters),
      ("return_type", result.toJson), ("name", .string name),
      ("parameters", .ofList FormalParameter.toJson parameters),
      ("throws", .ofList ClassType.toJson throws), ("body", .ofOption Block.toJson body),
      ("context", .null)], ∀ c ∈ m.2.elements,
      IsSound c ∨ m.1 = "return_type" ∧ Everywhere IsSoundNode c := by
    intro m hm c hc
    simp only [List.mem_cons, List.not_mem_nil, or_false] at hm
    rcases hm with rfl | rfl | rfl | rfl | rfl | rfl | rfl | rfl | rfl
    · exact .inl (isSoundMember_string _ c hc)
    · exact .inl (isSoundMember_ofList.mpr (fun m _ => m.isSound_toJson) c hc)
    · exact .inl (isSoundMember_ofList.mpr (fun p _ => p.isSound_toJson) c hc)
    · rw [result.elements_toJson, List.mem_singleton] at hc
      exact .inr ⟨rfl, hc ▸ result.everywhere_toJson⟩
    · exact .inl (isSoundMember_string _ c hc)
    · exact .inl (isSoundMember_ofList.mpr hp c hc)
    · exact .inl (isSoundMember_ofList.mpr (fun t _ => t.isSound_toJson) c hc)
    · exact .inl (isSoundMember_ofOption hb c hc)
    · exact .inl (isSoundMember_null c hc)
  have hchildren := fun m hm c hc => (hmembers m hm c hc).elim IsSound.everywhere And.right
  have hrequirement : IsRegularNode (MethodDeclaration.toJson
      ⟨modifiers, typeParameters, result, name, parameters, throws, body, none⟩) :=
    isRegularNode_node ⟨⟨⟨name, rfl, hname⟩, rfl⟩,
      hasList_map throws rfl fun c _ => c.isKind_toJson⟩
  refine ⟨isKind_node.mpr rfl, everywhere_object hrequirement
    fun m hm c hc n hn => (hchildren m hm c hc n hn).1, fun n hn key c hc hv => ?_⟩
  rcases hn.eq_or_exists with rfl | ⟨key', d, hd, hn⟩
  · obtain ⟨v, hm, hc⟩ := exists_member_of_mem_children hc
    rcases hmembers _ hm c hc with hs | ⟨hkey, -⟩
    · exact absurd hv hs.not_void
    · exact .inl ⟨rfl, hkey⟩
  · obtain ⟨v, hm, hd⟩ := exists_member_of_mem_children hd
    exact .inr ((hchildren _ hm d hd n hn).2 key c hc hv)

end MemberAccess.Java
