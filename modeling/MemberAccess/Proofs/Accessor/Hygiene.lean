import MemberAccess.Proofs.Accessor.Arguments

/-!
# Names in accessor methods

A name in the body of an accessor method is that of a parameter at a place to which the parameter is
passed, or that of a local, or `java` where a class is loaded. The locals have names of their own, but
a parameter can have the name `java`, and then it is the parameter that the name means everywhere.
-/

namespace MemberAccess.Accessor

open Java

def packageUse : Text × Site := ("java", .selected ["lang", "Class"])

namespace LocalNames

theorem packageUse_notMem_all (parameters : List Parameter) :
    packageUse.1 ∉ (of parameters).all := by
  have hjava : packageUse.1.head? = some (CodePoint.ofChar 'j') := rfl
  rw [all, List.mem_cons, List.mem_cons, List.mem_singleton]
  rintro (he | he | he)
  · exact ne_of_head? hjava (head?_klass parameters) (by decide) he
  · exact ne_of_head? hjava (head?_member parameters) (by decide) he
  · exact ne_of_head? hjava (head?_error parameters) (by decide) he

end LocalNames

def classUses (name : Text) : List (Text × Site) :=
  if TypeName.isPrimitive name then [] else [packageUse]

namespace Target

/-- The types of which there are class objects in the look-up. -/
def lookedUp (parameters : List Parameter) : Target → List Text
  | field .. => []
  | method .. => (parameters.drop 1).map (·.binaryName)
  | constructor _ => parameters.map (·.binaryName)

/-- Where the receiver is used to find the class in which the search begins. -/
def examined (parameters : List Parameter) (target : Target) : List (Text × Site) :=
  (target.receiver? parameters).toList.flatMap fun x => [(x, .operand), (x, .receiver "getClass")]

/-- The parameters that are passed to the member, as arguments of the access. -/
def passed (parameters : List Parameter) (target : Target) : List (Text × Site) :=
  let receiver (method : Text) : List (Text × Site) :=
    (target.receiver? parameters).toList.map fun x => (x, .argument method 0)
  let all (method : Text) : List (Text × Site) :=
    parameters.zipIdx.map fun p => (p.1.name, .argument method p.2)
  match target with
  | field .get .. => receiver "get"
  | field .set .. => receiver "set" ++ [(valueName parameters, .argument "set" 1)]
  | method .. => all "invoke"
  | constructor _ => all "newInstance"

def accessName : Target → Text
  | field .get .. => "get"
  | field .set .. => "set"
  | method .. => "invoke"
  | constructor _ => "newInstance"

end Target

section
variable {use : Text × Site} {site : Site} {names : LocalNames} {parameters : List Parameter}
  {target : Target}

theorem uses_classObject (name : Text) :
    ((classObject name).within site).filterMap use? = classUses name := by
  rw [classObject, classUses, TypeName.isPrimitive]
  cases TypeName.primitive? name with
  | some p => rfl
  | none =>
    by_cases hvoid : name = "void"
    · rw [if_pos hvoid, decide_eq_true hvoid]
      rfl
    · rw [if_neg hvoid, decide_eq_false hvoid]
      rfl

theorem uses_classObjects (sites : Nat → Site) (index : Nat) (ps : List Parameter) :
    (withinAll sites index (ps.map fun p => classObject p.binaryName)).filterMap use? =
      (ps.map (·.binaryName)).flatMap classUses := by
  have hfirst : (ps.zipIdx index).map Prod.fst = ps := List.zipIdx_map_fst index ps
  rw [withinAll_map, List.filterMap_flatMap, List.flatMap_map]
  simp only [uses_classObject]
  rw [← List.flatMap_map (f := Prod.fst) (g := fun p : Parameter => classUses p.binaryName), hfirst]

theorem uses_named_all (sites : Nat → Site) (index : Nat) (ps : List Parameter) :
    (withinAll sites index (ps.map fun p => .named p.name)).filterMap use? =
      (ps.zipIdx index).map fun p => (p.1.name, sites p.2) := by
  rw [withinAll_map, List.filterMap_flatMap]
  exact List.flatMap_pure_eq_map _ _

theorem uses_invoke (x name : Text) (arguments : List Expr) :
    ((Expr.invoke (.named x) name arguments).within site).filterMap use? =
      (x, .receiver name) :: (withinAll (.argument name) 0 arguments).filterMap use? := rfl

theorem uses_startClass (receiver : Option Text) (name : Text) :
    ((startClass receiver name).within site).filterMap use? =
      match receiver with
      | none => classUses name
      | some x => (x, .operand) :: (classUses name ++ [(x, .receiver "getClass")]) := by
  cases receiver with
  | none => exact uses_classObject name
  | some x =>
    simp only [startClass, Expr.within, Place.within, withinAll, List.filterMap_append,
      List.filterMap_cons, List.filterMap_nil, use?, uses_classObject, List.append_nil,
      List.cons_append, List.nil_append]

theorem uses_lookupExpr :
    ((target.lookupExpr parameters).within site).filterMap use? =
      ((LocalNames.of parameters).klass, .receiver (target.lookupCall parameters).1) ::
        (target.lookedUp parameters).flatMap classUses := by
  rw [Target.lookupExpr, uses_invoke]
  cases target with
  | field => rfl
  | method className methodName =>
    exact congrArg (_ :: ·) (uses_classObjects _ 1 (parameters.drop 1))
  | constructor => exact congrArg (_ :: ·) (uses_classObjects _ 0 parameters)

theorem uses_accessExpr :
    ((target.accessExpr parameters).within site).filterMap use? =
      ((LocalNames.of parameters).member, .receiver target.accessName) ::
        target.passed parameters := by
  cases target with
  | field kind className fieldName =>
    have hreceiver : ∀ (r : Option Text) (method : Text),
        (((r.map Expr.named).getD .null).within (.argument method 0)).filterMap use? =
          r.toList.map fun x => (x, .argument method 0) := by
      intro r method
      cases r <;> rfl
    cases kind with
    | get =>
      rw [Target.accessExpr, uses_invoke, withinAll, List.filterMap_append, hreceiver]
      exact congrArg (_ :: ·) (List.append_nil _)
    | set =>
      rw [Target.accessExpr, uses_invoke, withinAll, List.filterMap_append, hreceiver]
      rfl
  | method =>
    rw [Target.accessExpr, uses_invoke]
    cases parameters with
    | nil => rfl
    | cons p ps => exact congrArg (_ :: ·) (uses_named_all _ 0 (p :: ps))
  | constructor => exact congrArg (_ :: ·) (uses_named_all _ 0 parameters)

theorem uses_walk (names : LocalNames) (lookup : Expr) (notFound : Text) :
    (withinStatements (walk names lookup notFound)).filterMap use? =
      [(names.member, .operand), (names.member, .assigned)] ++
        ((lookup.within .operand).filterMap use? ++
          [(names.klass, .assigned), (names.klass, .receiver "getSuperclass"),
            (names.klass, .operand), (names.error, .whole),
            (names.member, .receiver "setAccessible")]) := by
  simp only [walk, withinStatements, BlockStatement.within, Statement.within, Block.within,
    withinCatches, CatchClause.within, Expr.within, Place.within, withinAll, List.filterMap_append,
    List.filterMap_cons, List.filterMap_nil, use?, List.append_nil, List.nil_append,
    List.cons_append, List.append_assoc]

theorem uses_catches (error : Text) (unchecked : ClassType) (exceptions : List Text) :
    (withinCatches (exceptions.map (catchClause error unchecked))).filterMap use? =
      exceptions.map fun _ => (error, .created 0) := by
  induction exceptions with
  | nil => rfl
  | cons x exceptions ih => exact congrArg ((error, Site.created 0) :: ·) ih

end

namespace Spec
variable {spec : Spec} {style : Style} {result : ResultType} {formals : List FormalParameter}
  {unchecked : ClassType} {m : MethodDeclaration}

def parameterUses (spec : Spec) : List (Text × Site) :=
  spec.target.examined spec.parameters ++ spec.target.passed spec.parameters

/-- Where classes are loaded. -/
def packageUses (spec : Spec) : List (Text × Site) :=
  (spec.target.className :: spec.target.lookedUp spec.parameters).flatMap classUses

/-- Where the locals are used. -/
def ownUses (spec : Spec) : List (Text × Site) :=
  let names := LocalNames.of spec.parameters
  [(names.member, .operand), (names.member, .assigned),
    (names.klass, .receiver (spec.target.lookupCall spec.parameters).1), (names.klass, .assigned),
    (names.klass, .receiver "getSuperclass"), (names.klass, .operand), (names.error, .whole),
    (names.member, .receiver "setAccessible"), (names.member, .receiver spec.target.accessName)] ++
  spec.target.exceptions.map fun _ => (names.error, .created 0)

theorem perm_startClass (spec : Spec) (site : Site) :
    (((startClass (spec.target.receiver? spec.parameters) spec.target.className).within
      site).filterMap use?).Perm
        (spec.target.examined spec.parameters ++ classUses spec.target.className) := by
  rw [uses_startClass, Target.examined]
  cases spec.target.receiver? spec.parameters with
  | none => exact .refl _
  | some x => exact .cons _ List.perm_append_comm

theorem uses_accessTree : (spec.accessTree result).within.filterMap use? =
    ((LocalNames.of spec.parameters).member, .receiver spec.target.accessName) ::
      spec.target.passed spec.parameters := by
  cases result <;> exact uses_accessExpr

theorem perm_uses_methodTree : (spec.methodTree result formals unchecked).uses.Perm
    (spec.parameterUses ++ (spec.packageUses ++ spec.ownUses)) := by
  have hstart := (perm_startClass spec .whole).count_eq
  refine List.perm_iff_count.mpr fun use => ?_
  rw [MethodDeclaration.uses, expressions_methodTree]
  simp only [List.filterMap_append, List.filterMap_cons, use?, uses_walk, uses_lookupExpr,
    uses_accessTree, uses_catches]
  simp only [parameterUses, packageUses, ownUses, List.flatMap_cons, List.count_append,
    List.count_cons, List.count_nil, hstart]
  omega

theorem passed_nameless (target : Target) (parameters : List Parameter) :
    target.nameless.passed (parameters.map Parameter.nameless) = target.passed parameters := by
  have hall : ∀ method : Text, ((parameters.map Parameter.nameless).zipIdx.map fun p =>
      (p.1.name, Site.argument method p.2)) =
        parameters.zipIdx.map fun p => (p.1.name, .argument method p.2) := fun method => by
    rw [List.zipIdx_map, List.map_map]
    rfl
  have hreceiver : target.nameless.receiver? (parameters.map Parameter.nameless) =
      target.receiver? parameters := Target.receiver?_nameless
  cases target with
  | field kind =>
    rw [Target.nameless] at hreceiver ⊢
    cases kind <;> simp only [Target.passed, hreceiver, Target.valueName_nameless]
  | method => exact hall "invoke"
  | constructor => exact hall "newInstance"

theorem parameterUses_nameless : spec.nameless.parameterUses = spec.parameterUses := by
  rw [parameterUses, nameless, passed_nameless, Target.examined, Target.receiver?_nameless,
    parameterUses, Target.examined]

theorem classUses_primitiveName (name : Text) : classUses (primitiveName name) = classUses name := by
  cases h : TypeName.isPrimitive name with
  | true => rw [primitiveName, if_pos h]
  | false =>
    have hnil : TypeName.isPrimitive [] = false := by decide
    simp [primitiveName, classUses, h, hnil]

theorem packageUses_nameless : spec.nameless.packageUses = spec.packageUses := by
  have hlooked : (spec.target.nameless.lookedUp (spec.parameters.map Parameter.nameless)) =
      (spec.target.lookedUp spec.parameters).map primitiveName := by
    have hnames : ∀ ps : List Parameter, (ps.map Parameter.nameless).map (·.binaryName) =
        (ps.map (·.binaryName)).map primitiveName := fun ps => by
      rw [List.map_map, List.map_map]
      rfl
    cases spec.target with
    | field => rfl
    | method => rw [Target.nameless, Target.lookedUp, ← List.map_drop, hnames, Target.lookedUp]
    | constructor => exact hnames spec.parameters
  rw [packageUses, nameless, hlooked, Target.className_nameless, ← List.map_cons, List.flatMap_map,
    packageUses]
  simp only [classUses_primitiveName]

theorem ownUses_nameless : spec.nameless.ownUses = spec.ownUses := by
  have hlookup : (spec.target.nameless.lookupCall (spec.parameters.map Parameter.nameless)).1 =
      (spec.target.lookupCall spec.parameters).1 := by
    cases spec.target <;> rfl
  have haccess : spec.target.nameless.accessName = spec.target.accessName := by
    cases spec.target with
    | field kind => cases kind <;> rfl
    | method | constructor => rfl
  simp only [ownUses, nameless, Target.localNames_nameless, hlookup, haccess,
    Target.exceptions_nameless]

theorem mem_parameterUses (hc : spec.target.check spec.parameters = .ok ()) :
    ∀ use ∈ spec.parameterUses, use.1 ∈ spec.parameters.map (·.name) := by
  have hreceiver : ∀ x ∈ (spec.target.receiver? spec.parameters).toList,
      x ∈ spec.parameters.map (·.name) := fun x hx =>
    spec.target.mem_of_mem_receiver? (Option.mem_toList.mp hx)
  have hall : ∀ method : Text, ∀ use ∈ spec.parameters.zipIdx.map fun p =>
      (p.1.name, Site.argument method p.2), use.1 ∈ spec.parameters.map (·.name) := by
    intro method use huse
    obtain ⟨p, hp, rfl⟩ := List.mem_map.mp huse
    exact List.mem_map_of_mem (List.fst_mem_of_mem_zipIdx hp)
  intro use huse
  rcases List.mem_append.mp huse with hexamined | hpassed
  · obtain ⟨x, hx, huse⟩ := List.mem_flatMap.mp hexamined
    simp only [List.mem_cons, List.not_mem_nil, or_false] at huse
    rcases huse with rfl | rfl <;> exact hreceiver x hx
  · obtain ⟨_, _, _, parameters, target⟩ := spec
    cases target with
    | field kind =>
      cases kind with
      | get =>
        obtain ⟨x, hx, rfl⟩ := List.mem_map.mp hpassed
        exact hreceiver x hx
      | set =>
        rcases List.mem_append.mp hpassed with hpassed | hvalue
        · obtain ⟨x, hx, rfl⟩ := List.mem_map.mp hpassed
          exact hreceiver x hx
        · rw [List.mem_singleton.mp hvalue]
          exact Target.valueName_mem hc
    | method => exact hall "invoke" use hpassed
    | constructor => exact hall "newInstance" use hpassed

theorem mem_ownUses : ∀ use ∈ spec.ownUses, use.1 ∈ (LocalNames.of spec.parameters).all := by
  refine List.forall_mem_append.mpr ⟨by simp [LocalNames.all], ?_⟩
  intro use huse
  obtain ⟨x, -, rfl⟩ := List.mem_map.mp huse
  simp [LocalNames.all]

theorem eq_packageUse : ∀ use ∈ spec.packageUses, use = packageUse := by
  intro use huse
  obtain ⟨name, -, hname⟩ := List.mem_flatMap.mp huse
  rw [classUses] at hname
  split at hname
  · cases hname
  · exact List.mem_singleton.mp hname

/-- The names of parameters, of locals and of the package that classes are loaded from stand for
what they are to stand for, unless a parameter has the name of the package. -/
structure IsHygienic (spec : Spec) (m : MethodDeclaration) : Prop where
  uses : m.uses.Perm (spec.parameterUses ++ (spec.packageUses ++ spec.ownUses))
  parameters : ∀ use ∈ spec.parameterUses, use.1 ∈ spec.parameters.map (·.name)
  package : ∀ use ∈ spec.packageUses, use = packageUse
  own : ∀ use ∈ spec.ownUses, use.1 ∈ (LocalNames.of spec.parameters).all
  nodup : (LocalNames.of spec.parameters).all.Nodup
  disjoint : (spec.parameters.map (·.name)).Disjoint (LocalNames.of spec.parameters).all
  apart : packageUse.1 ∉ spec.parameters.map (·.name) →
    [spec.parameters.map (·.name), (LocalNames.of spec.parameters).all, [packageUse.1]].Pairwise
      List.Disjoint

theorem isHygienic (h : spec.IsTyped style result formals unchecked)
    (hm : parse (spec.assemble style) = .ok m) : spec.IsHygienic m where
  uses := by
    rw [MethodDeclaration.uses_eq_of_blank_eq (blank_eq_of_parse h hm), ← parameterUses_nameless,
      ← packageUses_nameless, ← ownUses_nameless]
    exact perm_uses_methodTree
  parameters := mem_parameterUses h.isChecked
  package := eq_packageUse
  own := mem_ownUses
  nodup := LocalNames.nodup_all spec.parameters
  disjoint := LocalNames.disjoint_all spec.parameters
  apart hjava := by
    simpa [LocalNames.disjoint_all, LocalNames.packageUse_notMem_all] using hjava

theorem isHygienic_locals :
    let spec : Spec := ⟨"put", false, "void", [⟨"C", "klass", "C"⟩, ⟨"D", "e", "D"⟩],
      .field .set "C" "a\"b"⟩
    let style : Style := ⟨"  ", "E"⟩
    let formals : List FormalParameter := [⟨[], .reference (.mk "C" []) 0, false, "klass"⟩,
      ⟨[], .reference (.mk "D" []) 0, false, "e"⟩]
    spec.IsTyped style .void formals (.mk "E" []) ∧
      ∃ m, parse (spec.assemble style) = .ok m ∧ spec.IsHygienic m := by
  intro spec style formals
  have h : spec.IsRegular style .void formals (.mk "E" []) :=
    { isIdentifier := by decide +kernel
      returns := rfl
      declares := .cons (.of_name "C" (by decide +kernel) (by decide +kernel))
        (.cons (.of_name "D" (by decide +kernel) (by decide +kernel)) .nil)
      isChecked := rfl
      targetNames := by decide
      binaryNames := by decide
      indent := rfl
      throws := ⟨[nameLexeme "E"], by decide +kernel, classType_of_name "E"⟩ }
  have hm := (phrase_assemble h).parse_of_padded
    (padded_assemble spec style.uncheckedException h.indent)
  exact ⟨h.isTyped, _, hm, isHygienic h.isTyped hm⟩

/-- A parameter takes the name of the package away from the class that is loaded. -/
theorem exists_package_captured :
    let spec : Spec := ⟨"f", false, "void", [⟨"C", "java", "C"⟩], .field .get "C" "x"⟩
    ∃ m, parse (spec.assemble {}) = .ok m ∧ packageUse ∈ m.uses ∧
      packageUse.1 ∈ m.parameters.map (·.name) ∧ (packageUse.1, .argument "get" 0) ∈ m.uses := by
  intro spec
  have h : spec.IsRegular {} .void _ (.mk "java.lang.RuntimeException" []) :=
    { isIdentifier := by decide +kernel
      returns := rfl
      declares := .cons (.of_name "C" (by decide +kernel) (by decide +kernel)) .nil
      isChecked := rfl
      targetNames := by decide
      binaryNames := by decide
      indent := rfl
      throws := ⟨_, by decide +kernel, classType_of_names ["java", "lang", "RuntimeException"]
        (by simp)⟩ }
  have hm := (phrase_assemble h).parse_of_padded (padded_assemble spec _ h.indent)
  exact ⟨_, hm, perm_uses_methodTree.mem_iff.mpr (by decide), by decide,
    perm_uses_methodTree.mem_iff.mpr (by decide)⟩

end Spec

end MemberAccess.Accessor
