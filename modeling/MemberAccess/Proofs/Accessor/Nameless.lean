import MemberAccess.Proofs.Accessor.RoundTrip
import MemberAccess.Proofs.Java.Requoted

/-!
# Accessor methods whatever is quoted in them

The names of the class, of the member and of the classes of parameters stand in string literals.
A method with other names is the same but for these literals, if it is a method at all. So what an
accessor method does apart from them is known without any condition on the names.
-/

namespace MemberAccess.Accessor

open Java Java.Lexer

/-- The name of a primitive type, which is not quoted, or nothing. -/
def primitiveName (name : Text) : Text := if TypeName.isPrimitive name then name else []

def Parameter.nameless (p : Parameter) : Parameter :=
  { p with binaryName := primitiveName p.binaryName }

namespace Target

def nameless : Target → Target
  | field access className _ => field access (primitiveName className) []
  | method className _ => method (primitiveName className) []
  | constructor className => constructor (primitiveName className)

variable {target : Target} {parameters : List Parameter}

theorem map_name_nameless :
    (parameters.map Parameter.nameless).map (·.name) = parameters.map (·.name) := by
  rw [List.map_map]
  rfl

theorem localNames_nameless :
    LocalNames.of (parameters.map Parameter.nameless) = LocalNames.of parameters := by
  rw [LocalNames.of, LocalNames.of, map_name_nameless]

theorem receiver?_nameless :
    target.nameless.receiver? (parameters.map Parameter.nameless) = target.receiver? parameters := by
  have hhead : ((parameters.map Parameter.nameless).head?).map (·.name) =
      parameters.head?.map (·.name) := by
    cases parameters <;> rfl
  cases target with
  | field access =>
    cases access with
    | get => exact hhead
    | set => simp only [nameless, receiver?, List.length_map, hhead]
  | method => exact hhead
  | constructor => rfl

theorem valueName_nameless :
    valueName (parameters.map Parameter.nameless) = valueName parameters := by
  rw [valueName, List.getLast?_map, Option.map_map]
  rfl

theorem access_nameless :
    target.nameless.access (parameters.map Parameter.nameless) = target.access parameters := by
  cases target with
  | field kind className fieldName =>
    have hreceiver : (field kind className fieldName).nameless.receiver?
        (parameters.map Parameter.nameless) = _ := receiver?_nameless
    rw [nameless] at hreceiver
    simp only [nameless, Target.access, hreceiver, localNames_nameless, valueName_nameless]
  | method =>
    rw [nameless, access, access, localNames_nameless, map_name_nameless, List.isEmpty_map]
  | constructor => rw [nameless, access, access, localNames_nameless, map_name_nameless]

@[simp] theorem memberType_nameless : target.nameless.memberType = target.memberType := by
  cases target <;> rfl

@[simp] theorem notFound_nameless : target.nameless.notFound = target.notFound := by
  cases target <;> rfl

@[simp] theorem exceptions_nameless : target.nameless.exceptions = target.exceptions := by
  cases target <;> rfl

theorem className_nameless : target.nameless.className = primitiveName target.className := by
  cases target <;> rfl

theorem check_nameless (h : target.check parameters = .ok ()) :
    target.nameless.check (parameters.map Parameter.nameless) = .ok () := by
  cases target with
  | field access =>
    cases access with
    | get => rfl
    | set =>
      cases parameters with
      | nil => cases h
      | cons => rfl
  | method | constructor => rfl

theorem isOneLine_primitiveName (name : Text) : IsOneLine (primitiveName name) := by
  have hall : ∀ p ∈ Primitive.all, IsOneLine p.text := by decide
  rw [primitiveName]
  split
  · rename_i hp
    rcases TypeName.isPrimitive_iff.mp hp with ⟨p, rfl⟩ | rfl
    · exact hall p p.mem_all
    · decide
  · exact fun c hc => by cases hc

theorem isOneLine_nameless : ∀ x ∈ target.nameless.names, IsOneLine x := by
  have hnil : IsOneLine [] := fun c hc => by cases hc
  cases target <;> simp [nameless, names, isOneLine_primitiveName, hnil]

theorem isOneLine_binaryName :
    ∀ p ∈ parameters.map Parameter.nameless, IsOneLine p.binaryName := by
  intro p hp
  obtain ⟨q, -, rfl⟩ := List.mem_map.mp hp
  exact isOneLine_primitiveName q.binaryName

end Target

/-- The second text is the first with other names in quotation marks. -/
abbrev Renamed : (prev : CodePoint) → Text → Text → Prop :=
  Requoted (fun _ => false) fun q => ∃ name, q = TypeName.quote name

variable {t t' : Text} {prev : CodePoint}

theorem renamed_quote (name : Text) (hprev : prev ∈ separators) :
    Renamed prev (TypeName.quote []) (TypeName.quote name) := by
  have h : Renamed prev (Text.ofString "\"\"") (TypeName.quote name ++ []) :=
    .quoted hprev ⟨name, rfl⟩ .nil
  rwa [List.append_nil] at h

theorem renamed_call {method : Text} {xs xs' : List Text} (hm : IsPlain method)
    (h : List.Forall₂ (fun x x' => ∀ c ∈ separators, Renamed c x x') xs xs') :
    Renamed prev (call method xs) (call method xs') := by
  have hopen : IsPlain (method ++ Text.ofString "(") := hm.append (by decide)
  have hapart : EndsApart (method ++ Text.ofString "(") := .append (by decide) method
  have harguments : ∀ c ∈ separators, Renamed c (Text.join (Text.ofString ", ") xs)
      (Text.join (Text.ofString ", ") xs') := fun c hc => .join (by decide) (by decide) hc h
  exact ((Requoted.refl hopen prev).append_apart hapart harguments).append_any (.refl (by decide))

theorem isPlain_of_isIdentifier {x : Text} (h : IsIdentifier x) : IsPlain x :=
  IsTextOf.isPlain (k := .identifier) h (by decide)

theorem renamed_classExpression (name : Text) :
    Renamed prev (TypeName.classExpression (primitiveName name)) (TypeName.classExpression name) := by
  rw [primitiveName]
  cases hp : TypeName.isPrimitive name with
  | true =>
    have hplain : ∀ p ∈ Primitive.all, IsPlain (p.text ++ ".class") := by decide
    rw [if_pos rfl, TypeName.classExpression, if_pos hp]
    rcases TypeName.isPrimitive_iff.mp hp with ⟨p, rfl⟩ | rfl
    · exact .refl (hplain p p.mem_all) prev
    · exact .refl (by decide) prev
  | false =>
    have hnone : TypeName.isPrimitive [] = false := by decide
    have hempty : TypeName.loadable [] = [] := by decide
    rw [if_neg (by decide), TypeName.classExpression, if_neg (by rw [hnone]; decide), hempty,
      TypeName.classExpression, if_neg (by rw [hp]; decide)]
    exact ((Requoted.refl (by decide) prev).append_apart (by decide)
      fun c hc => renamed_quote _ hc).append_any (.refl (by decide))

theorem isPlain_call {method : Text} {xs : List Text} (hm : IsPlain method)
    (h : ∀ x ∈ xs, IsPlain x) : IsPlain (call method xs) := by
  have hjoin : IsPlain (Text.join (Text.ofString ", ") xs) := by
    have hparts : ∀ x ∈ xs, x.all (!isLiteralMark ·) = true := fun x hx =>
      List.all_eq_true.mpr fun c hc => by simp [h x hx c hc]
    have hall : (Text.join (Text.ofString ", ") xs).all (!isLiteralMark ·) = true :=
      Text.all_join (by decide) hparts
    exact fun c hc => by simpa using List.all_eq_true.mp hall c hc
  exact ((hm.append (by decide)).append hjoin).append (by decide)

theorem isPlain_of_returns {x : Text} {result : ResultType} (h : Spec.Returns x result) :
    IsPlain x := by
  cases result with
  | void => exact (show x = _ from h) ▸ (by decide)
  | type t =>
    obtain ⟨w, hr, hd⟩ := h
    have hq := Nonterminal.unquoted_of_derives hd (by decide)
    exact (hr.worded (i := true) hq).spelled.isPlain hq

namespace Target
variable {target : Target} {parameters : List Parameter}

theorem renamed_lookup :
    Renamed prev (target.nameless.lookup (parameters.map Parameter.nameless))
      (target.lookup parameters) := by
  have hclasses : ∀ ps : List Parameter,
      List.Forall₂ (fun x x' => ∀ c ∈ separators, Renamed c x x')
        ((ps.map Parameter.nameless).map fun p => TypeName.classExpression p.binaryName)
        (ps.map fun p => TypeName.classExpression p.binaryName) := by
    intro ps
    simp only [List.forall₂_map_left_iff, List.forall₂_map_right_iff]
    exact List.forall₂_same.mpr fun p _ c _ => renamed_classExpression p.binaryName
  cases target with
  | field access className fieldName =>
    exact renamed_call (by decide) (.cons (fun c hc => renamed_quote fieldName hc) .nil)
  | method className methodName =>
    rw [nameless, lookup, lookup, ← List.map_drop]
    exact renamed_call (by decide) (.cons (fun c hc => renamed_quote methodName hc) (hclasses _))
  | constructor className => exact renamed_call (by decide) (hclasses parameters)

end Target

theorem renamed_superclassWalk {names : LocalNames} {notFound : Text} (hk : IsPlain names.klass)
    (hm : IsPlain names.member) (he : IsPlain names.error) (hn : IsPlain notFound)
    (hl : ∀ c, Renamed c t t') (hprev : prev ∈ separators) :
    Renamed prev (superclassWalk names t notFound) (superclassWalk names t' notFound) := by
  have hplain : ∀ {x : Text}, IsPlain x → ∀ c ∈ separators, Renamed c x x := fun h c _ => .refl h c
  have hassign : IsPlain (Text.ofString "        " ++ names.member ++ Text.ofString " = " ++
      names.klass ++ Text.ofString ".") :=
    ((((IsPlain.append (by decide) hm).append (by decide)).append hk).append (by decide))
  refine .join (by decide) (by decide) hprev ?_
  refine .cons (hplain ((IsPlain.append (by decide) hm).append (by decide))) ?_
  refine .cons (hplain (by decide)) ?_
  refine .cons (fun c _ => ((Requoted.refl hassign c).append_any hl).append_any
    (.refl (by decide))) ?_
  refine .cons (hplain (by decide)) ?_
  refine .cons (hplain ((((IsPlain.append (by decide) hn).append (by decide)).append he).append
    (by decide))) ?_
  refine .cons (hplain ((((IsPlain.append (by decide) hk).append (by decide)).append hk).append
    (by decide))) ?_
  refine .cons (hplain ((((IsPlain.append (by decide) hk).append (by decide)).append he).append
    (by decide))) ?_
  exact .cons (hplain (by decide)) (.cons (hplain (by decide))
    (.cons (hplain (hm.append (by decide))) .nil))

namespace Target
variable {target : Target} {parameters : List Parameter}

theorem isPlain_exception (target : Target) : ∀ x ∈ target.exceptions, IsPlain x := by
  have hall : ∀ target ∈ [Target.field .get [] [], .method [] [], .constructor []],
      ∀ x ∈ target.exceptions, IsPlain x := by decide
  cases target with
  | field => exact hall (.field .get [] []) (by simp)
  | method => exact hall (.method [] []) (by simp)
  | constructor => exact hall (.constructor []) (by simp)

theorem isPlain_notFound : IsPlain target.notFound :=
  target.isPlain_exception target.notFound (by simp [exceptions])

theorem isPlain_memberType : IsPlain target.memberType := by
  cases target with
  | field => exact (by decide : IsPlain "java.lang.reflect.Field")
  | method => exact (by decide : IsPlain "java.lang.reflect.Method")
  | constructor => exact (by decide : IsPlain "java.lang.reflect.Constructor<?>")

theorem renamed_memberLookup (hprev : prev ∈ separators) :
    Renamed prev (target.nameless.memberLookup (parameters.map Parameter.nameless))
      (target.memberLookup parameters) := by
  rw [memberLookup, memberLookup, localNames_nameless, notFound_nameless]
  exact renamed_superclassWalk (isPlain_of_isIdentifier (LocalNames.isIdentifier_klass parameters))
    (isPlain_of_isIdentifier (LocalNames.isIdentifier_member parameters))
    (isPlain_of_isIdentifier (LocalNames.isIdentifier_error parameters))
    isPlain_notFound (fun _ => renamed_lookup) hprev

theorem renamed_classLookup (hr : ∀ x ∈ target.receiver? parameters, IsIdentifier x) :
    Renamed prev (target.nameless.classLookup (parameters.map Parameter.nameless))
      (target.classLookup parameters) := by
  rw [classLookup, classLookup, receiver?_nameless, className_nameless]
  cases hname : target.receiver? parameters with
  | none => exact renamed_classExpression target.className
  | some x =>
    have hx : IsPlain x := isPlain_of_isIdentifier (hr x hname)
    have hbegin : IsPlain (x ++ Text.ofString " == null ? ") := hx.append (by decide)
    have hclass : ∀ c, Renamed c (TypeName.classExpression (primitiveName target.className))
        (TypeName.classExpression target.className) := fun _ => renamed_classExpression _
    have hchoice := (Requoted.refl hbegin prev).append_any hclass
    exact ((hchoice.append_any (.refl (by decide))).append_any (.refl hx)).append_any
      (.refl (by decide))

end Target

namespace Spec

def nameless (spec : Spec) : Spec :=
  { spec with parameters := spec.parameters.map Parameter.nameless, target := spec.target.nameless }

/-- Names are identifiers, types are types, there is a value for a write, and lines are indented with
white space. The names of the class, of the member and of the classes of parameters are any texts. -/
structure IsTyped (spec : Spec) (style : Style) (result : ResultType)
    (formals : List FormalParameter) (unchecked : ClassType) : Prop where
  isIdentifier : IsIdentifier spec.name
  returns : Returns spec.returnType result
  declares : List.Forall₂ Declares spec.parameters formals
  isChecked : spec.target.check spec.parameters = .ok ()
  indent : style.indent.all isMargin = true
  throws : ∃ w, ReadsAs style.uncheckedException w ∧ Nonterminal.classType.Derives w unchecked

theorem header_nameless (spec : Spec) : spec.nameless.header = spec.header := by
  rw [header, header, nameless, List.map_map]
  rfl

variable {spec : Spec} {style : Style} {result : ResultType} {formals : List FormalParameter}
  {unchecked : ClassType}

theorem IsRegular.isTyped (h : spec.IsRegular style result formals unchecked) :
    spec.IsTyped style result formals unchecked :=
  ⟨h.isIdentifier, h.returns, h.declares, h.isChecked, h.indent, h.throws⟩

namespace IsTyped

theorem isRegular_nameless (h : spec.IsTyped style result formals unchecked) :
    spec.nameless.IsRegular style result formals unchecked where
  isIdentifier := h.isIdentifier
  returns := h.returns
  declares := List.forall₂_map_left_iff.mpr
    (h.declares.imp fun _ _ hd => ⟨hd.isIdentifier, hd.name_eq, hd.modifiers_eq, hd.readsAs⟩)
  isChecked := Target.check_nameless h.isChecked
  targetNames := Target.isOneLine_nameless
  binaryNames := Target.isOneLine_binaryName
  indent := h.indent
  throws := h.throws

theorem isPlain_header (h : spec.IsTyped style result formals unchecked) : IsPlain spec.header := by
  obtain ⟨w, hw, hheader⟩ := @exists_header true spec.nameless _ _ h.isRegular_nameless.isDeclared
  have hplain := hw.spelled.isPlain (avoids_of_header hheader (by decide +kernel) (by decide))
  rwa [header_nameless] at hplain

theorem isIdentifier_name (h : spec.IsTyped style result formals unchecked) :
    ∀ p ∈ spec.parameters, IsIdentifier p.name := by
  intro p hp
  exact h.isRegular_nameless.isWritable.names p.nameless (List.mem_map_of_mem hp)

theorem isPlain_access (h : spec.IsTyped style result formals unchecked) :
    IsPlain (spec.target.access spec.parameters) := by
  have hnames := h.isIdentifier_name
  have hmember := isPlain_of_isIdentifier (LocalNames.isIdentifier_member spec.parameters)
  have hreceiver : IsPlain
      ((Parameter.known? (spec.target.receiver? spec.parameters)).getD (Text.ofString "null")) := by
    cases hr : Parameter.known? (spec.target.receiver? spec.parameters) with
    | none => decide
    | some x =>
      exact isPlain_of_isIdentifier (isIdentifier_of_mem_receiver? spec.target hnames x
        (Option.filter_eq_some_iff.mp hr).1)
  have harguments : ∀ x ∈ spec.parameters.map (·.name), IsPlain x := by
    intro x hx
    obtain ⟨p, hp, rfl⟩ := List.mem_map.mp hx
    exact isPlain_of_isIdentifier (hnames p hp)
  have hchecked := h.isChecked
  obtain ⟨_, _, _, parameters, target⟩ := spec
  cases target with
  | field kind className fieldName =>
    cases kind with
    | get => exact isPlain_call (hmember.append (by decide)) (by simpa using hreceiver)
    | set =>
      have hvalue := isPlain_of_isIdentifier (Target.isIdentifier_valueName hnames hchecked)
      exact isPlain_call (hmember.append (by decide)) (by simpa using ⟨hreceiver, hvalue⟩)
  | method className methodName =>
    rw [Target.access]
    split
    · exact isPlain_call (hmember.append (by decide)) (by decide)
    · exact isPlain_call (hmember.append (by decide)) harguments
  | constructor className => exact isPlain_call (hmember.append (by decide)) harguments

theorem isPlain_accessStatement (h : spec.IsTyped style result formals unchecked) :
    IsPlain spec.accessStatement := by
  have hreturn := isPlain_of_returns h.returns
  rw [accessStatement]
  split
  · exact h.isPlain_access.append (by decide)
  · exact ((((by decide : IsPlain (Text.ofString "return (")).append hreturn).append
      (by decide)).append h.isPlain_access).append (by decide)

theorem renamed_accessCode (h : spec.IsTyped style result formals unchecked)
    (hprev : prev ∈ separators) : Renamed prev spec.nameless.accessCode spec.accessCode := by
  have hstatement : spec.nameless.accessStatement = spec.accessStatement := by
    rw [accessStatement, accessStatement]
    exact congrArg (fun access : Text => if spec.returnType = "void" then access ++ ";"
      else "return (" ++ spec.returnType ++ ") " ++ access ++ ";") Target.access_nameless
  have hklass := isPlain_of_isIdentifier (LocalNames.isIdentifier_klass spec.parameters)
  have hmember := isPlain_of_isIdentifier (LocalNames.isIdentifier_member spec.parameters)
  have hdeclaration : IsPlain (Text.ofString "java.lang.Class<?> " ++
      (LocalNames.of spec.parameters).klass ++ Text.ofString " = ") :=
    ((by decide : IsPlain (Text.ofString "java.lang.Class<?> ")).append hklass).append (by decide)
  rw [accessCode, accessCode, hstatement, nameless, Target.localNames_nameless,
    Target.memberType_nameless]
  refine .join (by decide) (by decide) hprev (.cons (fun c _ => ?_) (.cons (fun c _ => ?_)
    (.cons (fun c hc => Target.renamed_memberLookup hc)
      (.cons (fun c _ => .refl h.isPlain_accessStatement c) .nil))))
  · exact ((Requoted.refl hdeclaration c).append_any fun _ => Target.renamed_classLookup
      (isIdentifier_of_mem_receiver? spec.target h.isIdentifier_name)).append_any
        (.refl (by decide))
  · exact .refl (((Target.isPlain_memberType.append (by decide)).append hmember).append
      (by decide)) c

theorem renamed_assemble (h : spec.IsTyped style result formals unchecked) :
    Renamed ' ' (spec.nameless.assemble ⟨[], style.uncheckedException⟩)
      (spec.assemble ⟨[], style.uncheckedException⟩) := by
  have herror := isPlain_of_isIdentifier (LocalNames.isIdentifier_error spec.parameters)
  have hunchecked : IsPlain style.uncheckedException := by
    obtain ⟨w, hr, hd⟩ := h.throws
    have hq := Nonterminal.unquoted_of_derives hd (by decide)
    exact (hr.worded (i := true) hq).spelled.isPlain hq
  have hcatch : ∀ x ∈ spec.target.exceptions,
      IsPlain (Style.catchBlock ⟨[], style.uncheckedException⟩
        (LocalNames.of spec.parameters).error x) := fun x hx =>
    (((((((by decide : IsPlain (Text.ofString "catch (")).append (spec.target.isPlain_exception x hx)).append
      (by decide)).append herror).append (by decide)).append hunchecked).append (by decide)).append
        herror |>.append (by decide)
  have hbody : ∀ c ∈ separators, Renamed c (spec.nameless.body ⟨[], style.uncheckedException⟩)
      (spec.body ⟨[], style.uncheckedException⟩) := by
    intro c hc
    rw [body, body, Text.indent_nil, Text.indent_nil, nameless, Target.localNames_nameless,
      Target.exceptions_nameless]
    refine .join (by decide) (by decide) hc (.cons (fun c _ => .refl (by decide) c)
      (.cons (fun c hc => h.renamed_accessCode hc) (.cons (fun c _ => .refl (by decide) c) ?_)))
    refine List.forall₂_same.mpr fun y hy c _ => ?_
    obtain ⟨x, hx, rfl⟩ := List.mem_map.mp hy
    exact .refl (hcatch x hx) c
  have hheader : IsPlain (spec.header ++ Text.ofString " \x7b\n") :=
    h.isPlain_header.append (by decide)
  rw [assemble, assemble, header_nameless, Text.indent_nil, Text.indent_nil]
  exact ((Requoted.refl hheader ' ').append_apart (.append (by decide) _) hbody).append_any
    (.refl (by decide))

end IsTyped

/-- A typed method that is read from its text is known but for its string literals. -/
theorem blank_eq_of_parse {m : MethodDeclaration}
    (h : spec.IsTyped style result formals unchecked) (hm : parse (spec.assemble style) = .ok m) :
    m.blank = (spec.nameless.methodTree result formals unchecked).blank := by
  have hphrase := phrase_assemble h.isRegular_nameless
  have hpadded := (padded_assemble spec style.uncheckedException h.indent).of_false
    (b := CodePoint.isLineBoundary ' ')
  have hrequoted : Requoted isMargin IsDisguise ' ' _ _ := h.renamed_assemble.padded
    (fun ⟨_, hq⟩ hp => isDisguise_of_padded (hq ▸ hp)) hpadded
  exact hphrase.blank_eq_of_parse (fun _ hq => hq) hrequoted hm

end Spec

end MemberAccess.Accessor
