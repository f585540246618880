import MemberAccess.Proofs.Java.Ebnf.Image

/-!
# What the actions make of the items that they are given

The items of a node are found by their kinds. For the items that the parts of a rule leave, each
action gives the value that was meant.
-/

namespace MemberAccess.Java.Ebnf

namespace Item

def ofTypeExpr (t : TypeExpr) : Item := type (.type t)

def ofClassTypes (cs : List ClassType) : Item := tuple (cs.map ofClassType)

def ofClassTypePart (part : Text × List TypeArgument) : Item :=
  tuple [text part.1, tuple (part.2.map typeArgument)]

/-- The items of a number of dimensions, which is left out if it is zero. -/
def ofDimensions : Nat → List Item
  | 0 => []
  | k + 1 => [number (k + 1)]

def ofBody (b : Option Block) : Item := (b.map ofBlock).getD absent

variable {V α : Type} (f : Item → Option V) (item : V → Item)

theorem mapM_map (h : ∀ v, f (item v) = some v) (vs : List V) :
    (vs.map item).mapM f = some vs := by
  induction vs with
  | nil => rfl
  | cons v vs ih => simp [List.mapM_cons, h, ih]

theorem filterMap_map (h : ∀ v, f (item v) = some v) (vs : List V) :
    (vs.map item).filterMap f = vs := by
  have hsome : f ∘ item = some := funext h
  rw [List.filterMap_map, hsome, List.filterMap_some]

theorem filterMap_map_none (f : Item → Option α) (h : ∀ v, f (item v) = none) (vs : List V) :
    (vs.map item).filterMap f = [] := by
  simp [h]

theorem filter_map (p : Item → Bool) (h : ∀ v, p (item v) = true) (vs : List V) :
    (vs.map item).filter p = vs.map item := by
  simp [h]

section
variable {α : Type} (ms : List Modifier) (xs : List Item)

theorem filterMap_modifiers :
    (ms.map modifier ++ xs).filterMap modifier? = ms ++ xs.filterMap modifier? := by
  rw [List.filterMap_append, filterMap_map modifier? modifier fun _ => rfl]

theorem filterMap_after_modifiers (f : Item → Option α) (h : ∀ m, f (modifier m) = none) :
    (ms.map modifier ++ xs).filterMap f = xs.filterMap f := by
  rw [List.filterMap_append, filterMap_map_none modifier f h, List.nil_append]

theorem any_after_modifiers (p : Item → Bool) (h : ∀ m, p (modifier m) = false) :
    (ms.map modifier ++ xs).any p = xs.any p := by
  simp [h]

theorem filter_after_modifiers (p : Item → Bool) (h : ∀ m, p (modifier m) = false) :
    (ms.map modifier ++ xs).filter p = xs.filter p := by
  simp [h]

theorem findSome?_after_modifiers (f : Item → Option α) (h : ∀ m, f (modifier m) = none) :
    (ms.map modifier ++ xs).findSome? f = xs.findSome? f := by
  have hms : (ms.map modifier).findSome? f = none := by simp [h]
  rw [List.findSome?_append, hms, Option.none_or]

theorem tokenText?_after_modifiers (t : Terminal) :
    tokenText? t (ms.map modifier ++ xs) = tokenText? t xs := by
  have hms : (ms.map modifier).find? (isToken t) = none := by simp [isToken]
  rw [tokenText?, List.find?_append, hms, Option.none_or, tokenText?]

end

section
variable (tps : Option (List TypeParameter)) (t : ResultType) (x : Text)
  (ps : List FormalParameter) (cs : Option (List ClassType)) (b : Option Block)

/-- The items of a method's parts after its modifiers. -/
def afterModifiers : List Item :=
  (tps.map fun tps => tuple (tps.map typeParameter)).toList ++
    (type t :: token ⟨.identifier, x⟩ :: tuple (ps.map formalParameter) ::
      ((cs.map ofClassTypes).toList ++ [ofBody b]))

theorem tuples_afterModifiers :
    (afterModifiers tps t x ps cs b).filterMap tuple? =
      (tps.map (·.map typeParameter)).toList ++
        ps.map formalParameter :: (cs.map (·.map ofClassType)).toList := by
  cases tps <;> cases cs <;> cases b <;> rfl

end

end Item

namespace Action
open Item

theorem ofRule_dims (k : Nat) :
    ofRule .dims ((List.replicate k 1).map .number) = some (.number k) := by
  rw [ofRule, mapM_map number? .number fun _ => rfl]
  simp

theorem ofRule_primitiveType (p : Primitive) (y : Text) :
    ofRule .primitiveType [.token ⟨.keyword (.primitive p), y⟩] =
      some (ofTypeExpr (.primitive p 0)) := by
  cases p <;> rfl

theorem ofRule_type_primitive (p : Primitive) (k : Nat) :
    ofRule .type (ofTypeExpr (.primitive p 0) :: ofDimensions k) =
      some (ofTypeExpr (.primitive p k)) := by
  cases k <;> rfl

theorem ofRule_type_reference (c : ClassType) (k : Nat) :
    ofRule .type (ofClassType c :: ofDimensions k) = some (ofTypeExpr (.reference c k)) := by
  cases k <;> rfl

theorem classTypePart?_of (part : Text × List TypeArgument) :
    classTypePart? (ofClassTypePart part) = some part := by
  rw [ofClassTypePart, classTypePart?, mapM_map typeArgument? .typeArgument fun _ => rfl]
  rfl

theorem ofRule_classType (parts : List (Text × List TypeArgument)) :
    ofRule .classType (parts.map ofClassTypePart) = some (ofClassType (.ofParts parts)) := by
  rw [ofRule, mapM_map _ _ classTypePart?_of]
  rfl

theorem ofRule_classTypePart (x : Text) (args : Option (List TypeArgument)) :
    ofRule .classTypePart (.token ⟨.identifier, x⟩ ::
      (args.map fun args => .tuple (args.map .typeArgument)).toList) =
        some (ofClassTypePart (x, args.getD [])) := by
  cases args <;> rfl

theorem ofRule_typeArguments (args : List TypeArgument) :
    ofRule .typeArguments (args.map .typeArgument) = some (.tuple (args.map .typeArgument)) := by
  rw [ofRule, filter_map _ _ fun _ => rfl]

theorem ofRule_typeParameters (ps : List TypeParameter) :
    ofRule .typeParameters (ps.map .typeParameter) = some (.tuple (ps.map .typeParameter)) := by
  rw [ofRule, filter_map _ _ fun _ => rfl]

theorem ofRule_typeParameter (x : Text) (bounds : Option (List ClassType)) :
    ofRule .typeParameter (.token ⟨.identifier, x⟩ :: (bounds.map ofClassTypes).toList) =
      some (.typeParameter ⟨x, bounds.getD []⟩) := by
  cases bounds with
  | none => rfl
  | some bounds =>
    change (((bounds.map ofClassType).mapM classType?).bind fun bounds =>
      some (Item.typeParameter ⟨x, bounds⟩)) = _
    rw [mapM_map classType? ofClassType fun _ => rfl]
    rfl

theorem ofRule_throwsClause (cs : List ClassType) :
    ofRule .throwsClause (cs.map ofClassType) = some (ofClassTypes cs) := by
  rw [ofRule, filter_map _ _ fun _ => rfl, ofClassTypes]

theorem ofRule_typeBound (cs : List ClassType) :
    ofRule .typeBound (cs.map ofClassType) = some (ofClassTypes cs) := ofRule_throwsClause cs

theorem ofRule_catchType (cs : List ClassType) :
    ofRule .catchType (cs.map ofClassType) = some (ofClassTypes cs) := ofRule_throwsClause cs

theorem ofRule_modifierKeyword (k : ModifierKeyword) (y : Text) :
    ofRule .modifierKeyword [.token ⟨.keyword (.modifier k), y⟩] = some (.modifier (.keyword k)) := by
  cases k <;> rfl

theorem ofRule_qualifiedName (names : List Text) :
    ofRule .qualifiedName (names.map fun x => .token ⟨.identifier, x⟩) =
      some (.text (Text.join "." names)) := by
  rw [ofRule, mapM_map text? _ fun _ => rfl]
  rfl

theorem ofRule_formalParameters (ps : List FormalParameter) :
    ofRule .formalParameters (ps.map .formalParameter) = some (.tuple (ps.map .formalParameter)) := by
  rw [ofRule, filter_map _ _ fun _ => rfl]

theorem ofRule_formalParameter (ms : List Modifier) (t : TypeExpr) (dots : Option Text) (x : Text) :
    ofRule .formalParameter (ms.map .modifier ++ ofTypeExpr t ::
      ((dots.map fun y => .token ⟨.mark .ellipsis, y⟩).toList ++ [.token ⟨.identifier, x⟩])) =
        some (.formalParameter ⟨ms, t, dots.isSome, x⟩) := by
  rw [ofRule, formalParameter, filterMap_modifiers,
    filterMap_after_modifiers _ _ type? fun _ => rfl,
    any_after_modifiers _ _ (isToken (.mark .ellipsis)) fun _ => rfl, tokenText?_after_modifiers]
  cases dots with
  | none =>
    change some (Item.formalParameter ⟨ms ++ [], t, false, x⟩) = _
    rw [List.append_nil]
    rfl
  | some y =>
    change some (Item.formalParameter ⟨ms ++ [], t, true, x⟩) = _
    rw [List.append_nil]
    rfl

section
variable (ms : List Modifier) (tps : Option (List TypeParameter)) (t : ResultType) (x : Text)
  (ps : List FormalParameter) (cs : Option (List ClassType)) (b : Option Block)

/-- The parts of a method are told apart by their kinds, since no throws clause is empty. -/
theorem ofRule_methodDeclaration (hcs : cs ≠ some []) :
    ofRule .methodDeclaration (ms.map modifier ++ afterModifiers tps t x ps cs b) =
      some (.method ⟨ms, tps.getD [], t, x, ps, cs.getD [], b, none⟩) := by
  have htps : (tuplesOf (·.typeParameter?.isSome)
      (ms.map modifier ++ afterModifiers tps t x ps cs b)).getLast?.getD [] =
        (tps.getD []).map Item.typeParameter := by
    rw [tuplesOf, filterMap_after_modifiers _ _ tuple? fun _ => rfl, tuples_afterModifiers]
    rcases tps with _ | _ | _ <;> rcases ps with _ | _ <;> rcases cs with _ | _ | _ <;> rfl
  have hps : (((ms.map modifier ++ afterModifiers tps t x ps cs b).filterMap tuple?).filter
      fun xs => xs.head?.all (·.formalParameter?.isSome)).getLast?.getD [] =
        ps.map Item.formalParameter := by
    rw [filterMap_after_modifiers _ _ tuple? fun _ => rfl, tuples_afterModifiers]
    rcases cs with _ | _ | _
    · rcases tps with _ | _ | _ <;> rcases ps with _ | _ <;> rfl
    · exact absurd rfl hcs
    · rcases tps with _ | _ | _ <;> rcases ps with _ | _ <;> rfl
  have hcs : (tuplesOf (·.type?.isSome)
      (ms.map modifier ++ afterModifiers tps t x ps cs b)).getLast?.getD [] =
        (cs.getD []).map ofClassType := by
    rw [tuplesOf, filterMap_after_modifiers _ _ tuple? fun _ => rfl, tuples_afterModifiers]
    rcases tps with _ | _ | _ <;> rcases ps with _ | _ <;> rcases cs with _ | _ | _ <;> rfl
  have hms : (afterModifiers tps t x ps cs b).filterMap modifier? = [] := by
    cases tps <;> cases cs <;> cases b <;> rfl
  have ht : (afterModifiers tps t x ps cs b).findSome? type? = some t := by
    cases tps <;> rfl
  have hx : (afterModifiers tps t x ps cs b).filter (isToken .identifier) =
      [token ⟨.identifier, x⟩] := by
    cases tps <;> cases cs <;> cases b <;> rfl
  have hb : ((afterModifiers tps t x ps cs b).filterMap block?).getLast? = b := by
    cases tps <;> cases cs <;> cases b <;> rfl
  rw [ofRule, methodDeclaration, htps, hps, hcs, mapM_map typeParameter? Item.typeParameter fun _ => rfl,
    mapM_map formalParameter? Item.formalParameter fun _ => rfl,
    mapM_map classType? ofClassType fun _ => rfl, filterMap_modifiers, hms,
    findSome?_after_modifiers _ _ type? fun _ => rfl, ht,
    filter_after_modifiers _ _ (isToken .identifier) fun _ => rfl, hx,
    filterMap_after_modifiers _ _ block? fun _ => rfl, hb, List.append_nil]
  rfl

end

theorem ofRule_call (x : Text) (es : List Expr) :
    ofRule .methodInvocation [.token ⟨.identifier, x⟩, .tuple (es.map .expression)] =
      some (.expression (.call x es)) := by
  change ((es.map Item.expression).mapM expression?).bind
    (fun es => some (Item.expression (.call x es))) = _
  rw [mapM_map expression? .expression fun _ => rfl]
  rfl

theorem ofRule_invoke (e : Expr) (x : Text) (es : List Expr) :
    ofRule .methodInvocation
      [.expression e, .token ⟨.identifier, x⟩, .tuple (es.map .expression)] =
        some (.expression (.invoke e x es)) := by
  change ((es.map Item.expression).mapM expression?).bind
    (fun es => some (Item.expression (.invoke e x es))) = _
  rw [mapM_map expression? .expression fun _ => rfl]
  rfl

theorem ofRule_classInstanceCreation (c : ClassType) (es : List Expr) :
    ofRule .classInstanceCreation [ofClassType c, .tuple (es.map .expression)] =
      some (.expression (.new c es)) := by
  change ((es.map Item.expression).mapM expression?).bind
    (fun es => some (Item.expression (.new c es))) = _
  rw [mapM_map expression? .expression fun _ => rfl]
  rfl

theorem ofRule_cast_primitive (p : Primitive) (k : Nat) (e : Expr) :
    ofRule .castExpression (ofTypeExpr (.primitive p 0) :: (ofDimensions k ++ [.expression e])) =
      some (.expression (.cast (.primitive p k) e)) := by
  cases k <;> rfl

theorem ofRule_cast_reference (c : ClassType) (k : Nat) (e : Expr) :
    ofRule .castExpression (ofClassType c :: (ofDimensions k ++ [.expression e])) =
      some (.expression (.cast (.reference c k) e)) := by
  cases k <;> rfl

theorem binaryExpression_eq (op : BinaryOp) (l r : Expr) :
    binaryExpression [.expression l, .text op.mark.text, .expression r] =
      some (.expression (.binary op l r)) := by
  cases op <;> rfl

theorem ofRule_variableDeclarator (x : Text) (k : Nat) (e : Option Expr) :
    ofRule .variableDeclarator
      (.token ⟨.identifier, x⟩ :: (ofDimensions k ++ (e.map .expression).toList)) =
        some (.declarator ⟨x, k, e⟩) := by
  cases k <;> cases e <;> rfl

theorem ofRule_localVariableDeclaration (ms : List Modifier) (t : TypeExpr)
    (ds : List Declarator) :
    ofRule .localVariableDeclaration
      (ms.map .modifier ++ ofTypeExpr t :: ds.map .declarator) =
        some (.statement (.declaration ms t ds)) := by
  have hds₁ := filterMap_map_none Item.declarator type? (fun _ => rfl) ds
  have hds₂ := filterMap_map_none Item.declarator modifier? (fun _ => rfl) ds
  have hds₃ := filterMap_map declarator? .declarator (fun _ => rfl) ds
  rw [ofRule, localVariableDeclaration, filterMap_modifiers,
    filterMap_after_modifiers _ _ type? fun _ => rfl,
    filterMap_after_modifiers _ _ declarator? fun _ => rfl, ofTypeExpr,
    List.filterMap_cons, List.filterMap_cons, List.filterMap_cons]
  simp only [type?, modifier?, declarator?, hds₁, hds₂, hds₃, List.append_nil]
  rfl

theorem ofRule_block (ss : List BlockStatement) :
    ofRule .block (ss.map .statement) = some (ofBlock (.mk ss)) := by
  rw [ofRule, filterMap_map statement? .statement fun _ => rfl]

theorem ofRule_returnStatement (e : Option Expr) :
    ofRule .returnStatement (e.map .expression).toList =
      some (.statement (.statement (.return_ e))) := by
  cases e <;> rfl

theorem ofRule_tryStatement (b : Block) (cs : List CatchClause) (final : Option Block) :
    ofRule .tryStatement
      (ofBlock b :: (cs.map .catchClause ++ (final.map ofBlock).toList)) =
        some (.statement (.statement (.try_ b cs final))) := by
  cases final <;>
    simp [ofRule, tryStatement, List.filterMap_cons, Function.comp_def, ofBlock, block?,
      catchClause?]

theorem ofRule_catchClause (ms : List Modifier) (ts : List ClassType) (x : Text) (b : Block) :
    ofRule .catchClause
      (ms.map .modifier ++ [ofClassTypes ts, .token ⟨.identifier, x⟩, ofBlock b]) =
        some (.catchClause (.mk ms ts x b)) := by
  rw [ofRule, catchClause, filterMap_modifiers, tokenText?_after_modifiers,
    filterMap_after_modifiers _ _ tuple? fun _ => rfl,
    filterMap_after_modifiers _ _ block? fun _ => rfl]
  change ((ts.map ofClassType).mapM classType?).bind (fun ts =>
    some (Item.catchClause (.mk (ms ++ []) ts x b))) = _
  rw [mapM_map classType? ofClassType fun _ => rfl, List.append_nil]
  rfl

end Action

end MemberAccess.Java.Ebnf
