import MemberAccess.Java.Ast.Object
import MemberAccess.Proofs.Java.Lexeme.Literal
import MemberAccess.Proofs.Json.Within

/-!
# Well-formed method declarations

What every node of a method declaration satisfies beyond having the members of its kind. The
conditions are stated of the objects of the nodes, and pass from the parts of a tree to the tree.
-/

namespace MemberAccess

namespace Json

/-- The value is the object of a node of the kind. -/
def IsKind (kind : String) (n : Json) : Prop := n.member? "_type" = some (.string kind)

def IsOneOf (kinds : List String) (n : Json) : Prop := ∃ kind ∈ kinds, n.IsKind kind

/-- The member is a node of one of the kinds. -/
def HasOne (n : Json) (key : String) (kinds : List String) : Prop :=
  ∃ c, n.member? key = some c ∧ c.IsOneOf kinds

/-- The member is a list of nodes of the kind. -/
def HasList (n : Json) (key kind : String) : Prop :=
  ∃ cs, n.member? key = some (.array cs) ∧ ∀ c ∈ cs, c.IsKind kind

/-- The member is a list that is not empty. -/
def HasSome (n : Json) (key : String) : Prop := ∃ c cs, n.member? key = some (.array (c :: cs))

/-- The primitive name `void` in the place of a type. -/
def IsVoid (n : Json) : Prop := n.IsKind "PrimitiveType" ∧ n.member? "name" = some (.string "void")

end Json

namespace Java

open Json

/-- A type that is no array. -/
def elementKinds : List String := ["PrimitiveType", "ClassType"]

def typeKinds : List String := "ArrayType" :: elementKinds

/-- What an assignment can assign to. -/
def placeKinds : List String := ["Identifier", "FieldAccess", "ArrayAccess"]

/-- The statements that can stand where a declaration cannot. -/
def statementKinds : List String :=
  ["Block", "ExpressionStatement", "IfStatement", "WhileStatement", "ReturnStatement",
   "ThrowStatement", "TryStatement", "EmptyStatement"]

/-- Modifiers other than annotations are the keyword `final`. -/
def HasFinals (n : Json) : Prop :=
  ∀ c ∈ n.children "modifiers", ∀ k, c.member? "keyword" = some (.string k) → k = "final"

/-- The name of a method is not empty, and nothing is known of its class. -/
def HasName (n : Json) : Prop :=
  (∃ name, n.member? "name" = some (.string name) ∧ name ≠ []) ∧ n.member? "context" = some .null

/-- There is a keyword or an annotation, but not both. -/
def HasKeywordOrMarker (n : Json) : Prop :=
  (∃ k, n.member? "keyword" = some (.string k)) ∧ n.member? "annotation" = some .null ∨
    n.member? "keyword" = some .null ∧ n.HasOne "annotation" ["Annotation"]

/-- A question mark alone takes the place of a type, and words go with one. -/
def HasTypeOrWildcard (n : Json) : Prop :=
  n.member? "type" = some .null ∧ n.member? "wildcard" = some (.string "?") ∨
    n.HasOne "type" typeKinds ∧
      n.member? "wildcard" ∈ [some .null, some (.string "extends"), some (.string "super")]

/-- The kind of a literal is the one that its text shows. -/
def HasLiteralKind (n : Json) : Prop :=
  ∃ t, n.member? "value" = some (.string t) ∧
    n.member? "kind" = some (.string (LiteralKind.ofText t).text)

/-- What is asked of the node `n` if it is of a kind. -/
def Requirement (n : Json) : (kind : String) → Prop
  | "MethodDeclaration" => HasName n ∧ n.HasList "throws" "ClassType"
  | "Modifier" => HasKeywordOrMarker n
  | "TypeParameter" => n.HasList "bounds" "ClassType"
  | "FormalParameter" => HasFinals n
  | "ArrayType" =>
    (∃ d, n.member? "dimensions" = some (.number d) ∧ 1 ≤ d) ∧ n.HasOne "element_type" elementKinds
  | "TypeArgument" => HasTypeOrWildcard n
  | "LocalVariableDeclaration" => HasFinals n ∧ n.HasSome "declarators"
  | "CatchClause" => HasFinals n ∧ n.HasList "types" "ClassType" ∧ n.HasSome "types"
  | "TryStatement" => n.HasSome "catches" ∨ n.HasOne "finally_block" ["Block"]
  | "IfStatement" =>
    n.HasOne "then_branch" statementKinds ∧
      (n.member? "else_branch" = some .null ∨ n.HasOne "else_branch" statementKinds)
  | "WhileStatement" => n.HasOne "body" statementKinds
  | "Assignment" => n.HasOne "target" placeKinds
  | "NewInstance" => n.HasOne "type" ["ClassType"]
  | "Literal" => HasLiteralKind n
  | _ => True

/-- A node satisfies what is asked of its kind. -/
def IsRegularNode (n : Json) : Prop := ∀ kind, n.IsKind kind → Requirement n kind

/-- A method declaration all of whose nodes are regular and in which `void` is only the result of
the method or the type of a class literal. -/
structure IsWellFormed (root : Json) : Prop where
  isMethod : root.IsKind "MethodDeclaration"
  isRegular : Everywhere IsRegularNode root
  void : ∀ n, Within root n → ∀ key, ∀ c ∈ n.children key, c.IsVoid →
    n = root ∧ key = "return_type" ∨ n.IsKind "ClassLiteral" ∧ key = "type"

variable {kind kind' : String} {members : List (String × Json)}

theorem ofString_inj {s s' : String} (h : Text.ofString s = Text.ofString s') : s = s' := by
  have hchar : Function.Injective CodePoint.ofChar := fun _ _ => CodePoint.ofChar_inj.mp
  exact String.toList_inj.mp (List.map_injective_iff.mpr hchar h)

theorem isKind_node : (node kind members).IsKind kind' ↔ kind = kind' := by
  constructor
  · intro h
    exact ofString_inj (Json.string.inj (Option.some.inj h))
  · rintro rfl
    rfl

theorem isRegularNode_node (h : Requirement (node kind members) kind) :
    IsRegularNode (node kind members) := by
  intro kind' hk
  rw [← isKind_node.mp hk]
  exact h

theorem hasList_map {α : Type} {encode : α → Json} (items : List α) {key : String} {n : Json}
    (h : n.member? key = some (.array (items.map encode)))
    (hk : ∀ a ∈ items, (encode a).IsKind kind) : n.HasList key kind :=
  ⟨_, h, List.forall_mem_map.mpr hk⟩

/-- In the members of the value `void` is only the type of a class literal. -/
def VoidsAreLiteral (n : Json) : Prop :=
  ∀ key, ∀ c ∈ n.children key, c.IsVoid → n.IsKind "ClassLiteral" ∧ key = "type"

def IsSoundNode (n : Json) : Prop := IsRegularNode n ∧ VoidsAreLiteral n

/-- A part of a method declaration other than its result: a value, not a list of them, in which all
nodes are regular and `void` is only the type of class literals. -/
structure IsSound (n : Json) : Prop where
  everywhere : Everywhere IsSoundNode n
  not_void : ¬ n.IsVoid
  not_array : ∀ items, n ≠ .array items

/-- A value, or a list of values, that are sound. -/
def IsSoundMember (v : Json) : Prop := ∀ c ∈ v.elements, IsSound c

theorem IsSound.isSoundMember {n : Json} (h : IsSound n) : IsSoundMember n := by
  have he : n.elements = [n] := by
    cases n with
    | array items => exact absurd rfl (h.not_array items)
    | _ => rfl
  intro c hc
  rw [he, List.mem_singleton] at hc
  exact hc ▸ h

theorem isSoundMember_array {items : List Json} :
    IsSoundMember (.array items) ↔ ∀ c ∈ items, IsSound c := Iff.rfl

theorem isSoundMember_map {α : Type} {encode : α → Json} {items : List α} :
    IsSoundMember (.array (items.map encode)) ↔ ∀ a ∈ items, IsSound (encode a) :=
  isSoundMember_array.trans List.forall_mem_map

theorem isSoundMember_ofList {α : Type} {encode : α → Json} {items : List α} :
    IsSoundMember (.ofList encode items) ↔ ∀ a ∈ items, IsSound (encode a) := isSoundMember_map

/-- A value that is no object and no list is sound. -/
theorem isSound_of_forall_ne {n : Json} (ho : ∀ members, n ≠ .object members)
    (ha : ∀ items, n ≠ .array items) : IsSound n := by
  have hm : ∀ key, n.member? key = none := fun key => by
    cases n with
    | object members => exact absurd rfl (ho members)
    | _ => rfl
  have hk : ∀ kind, ¬ n.IsKind kind := fun kind h => by
    rw [IsKind, hm] at h
    cases h
  refine ⟨everywhere_of_forall_ne ⟨fun kind h => absurd h (hk kind), fun key c hc => ?_⟩ ho,
    fun h => hk _ h.1, ha⟩
  rw [children, hm] at hc
  cases hc

@[simp] theorem isSoundMember_string (t : Text) : IsSoundMember (.string t) :=
  (isSound_of_forall_ne (by simp) (by simp)).isSoundMember

@[simp] theorem isSoundMember_number (n : Nat) : IsSoundMember (.number n) :=
  (isSound_of_forall_ne (by simp) (by simp)).isSoundMember

@[simp] theorem isSoundMember_bool (b : Bool) : IsSoundMember (.bool b) :=
  (isSound_of_forall_ne (by simp) (by simp)).isSoundMember

@[simp] theorem isSoundMember_null : IsSoundMember .null :=
  (isSound_of_forall_ne (by simp) (by simp)).isSoundMember

theorem isSoundMember_ofOption {α : Type} {encode : α → Json} {a : Option α}
    (h : ∀ x ∈ a, IsSound (encode x)) : IsSoundMember (.ofOption encode a) := by
  cases a with
  | none => exact isSoundMember_null
  | some x => exact (h x rfl).isSoundMember

theorem not_isVoid_node (hk : kind ≠ "PrimitiveType") : ¬ (node kind members).IsVoid :=
  fun h => hk (isKind_node.mp h.1)

/-- A node with sound members is sound if it satisfies what is asked of its kind. -/
theorem isSound_node (hv : ¬ (node kind members).IsVoid)
    (hr : Requirement (node kind members) kind) (hm : ∀ m ∈ members, IsSoundMember m.2) :
    IsSound (node kind members) := by
  have hall : ∀ m ∈ ("_type", Json.string kind) :: members, IsSoundMember m.2 :=
    List.forall_mem_cons.mpr ⟨isSoundMember_string kind, hm⟩
  refine ⟨everywhere_object ⟨isRegularNode_node hr, fun key c hc hvoid => ?_⟩
    fun m h c hc => (hall m h c hc).everywhere, hv, by simp [node]⟩
  obtain ⟨v, h, hc⟩ := exists_member_of_mem_children hc
  exact absurd hvoid (hall _ h c hc).not_void

end Java

end MemberAccess
