import MemberAccess.Proofs.Accessor.Nameless
import MemberAccess.Proofs.Java.Ast.Uses

/-!
# What is passed to a member

A method or constructor is called with the parameters of the accessor method, in order, and looked up
with as many classes. They are handed over in an array, unless the only one of them is such an array
itself.
-/

namespace MemberAccess.Accessor

open Java

/-- The class where the search begins, the search, the access, and what exceptions are replaced with,
one after the other. -/
theorem expressions_methodTree (spec : Spec) (result : ResultType) (formals : List FormalParameter)
    (unchecked : ClassType) : (spec.methodTree result formals unchecked).expressions =
      (startClass (spec.target.receiver? spec.parameters) spec.target.className).within .whole ++
        ((.whole, .null) :: (withinStatements (walk (LocalNames.of spec.parameters)
          (spec.target.lookupExpr spec.parameters) spec.target.notFound) ++
            ((spec.accessTree result).within ++ withinCatches (spec.target.exceptions.map
              (catchClause (LocalNames.of spec.parameters).error unchecked))))) := by
  simp only [MethodDeclaration.expressions, Spec.methodTree, Spec.bodyTree, Option.map_some,
    Option.getD_some, Block.within, withinStatements, BlockStatement.within, Statement.within,
    Spec.accessStatements, withinStatements_append, List.append_nil, List.flatMap_cons,
    List.flatMap_nil, withinOption, Expr.within, List.append_assoc, List.cons_append,
    List.nil_append]

/-- The methods that are called in an accessor method besides those that look up and access. -/
def helperMethods : List Text := ["forName", "getClass", "getSuperclass", "setAccessible"]

section
variable {n : Text} {site : Site}

theorem calls_classObject (hn : n ∉ helperMethods) (name : Text) :
    ((classObject name).within site).filterMap (call? n) = [] := by
  have hne : Text.ofString "forName" ≠ n := fun he => hn (he ▸ by decide)
  rw [classObject]
  split
  · rfl
  · split
    · rfl
    · simp [Expr.within, Place.within, withinAll, call?, hne]

theorem calls_withinAll {A : Type} {f : A → Expr} {sites : Nat → Site} {index : Nat} {as : List A}
    (h : ∀ a site, ((f a).within site).filterMap (call? n) = []) :
    (withinAll sites index (as.map f)).filterMap (call? n) = [] := by
  rw [withinAll_map, List.filterMap_flatMap]
  exact List.flatMap_eq_nil_iff.mpr fun a _ => h a.1 (sites a.2)

theorem calls_named (x : Text) (site : Site) :
    ((Expr.named x).within site).filterMap (call? n) = [] := rfl

theorem calls_startClass (hn : n ∉ helperMethods) (receiver : Option Text) (className : Text) :
    ((startClass receiver className).within site).filterMap (call? n) = [] := by
  have hne : Text.ofString "getClass" ≠ n := fun he => hn (he ▸ by decide)
  cases receiver with
  | none => exact calls_classObject hn className
  | some x =>
    simp only [startClass, Expr.within, Place.within, withinAll, List.filterMap_append,
      List.filterMap_cons, List.filterMap_nil, call?, if_neg hne, calls_classObject hn,
      List.append_nil]

theorem calls_walk (hn : n ∉ helperMethods) (names : LocalNames) (lookup : Expr) (notFound : Text) :
    (withinStatements (walk names lookup notFound)).filterMap (call? n) =
      (lookup.within .operand).filterMap (call? n) := by
  have hsuper : Text.ofString "getSuperclass" ≠ n := fun he => hn (he ▸ by decide)
  have hopen : Text.ofString "setAccessible" ≠ n := fun he => hn (he ▸ by decide)
  simp only [walk, withinStatements, BlockStatement.within, Statement.within, Block.within,
    withinCatches, CatchClause.within, Expr.within, Place.within, withinAll, List.filterMap_append,
    List.filterMap_cons, List.filterMap_nil, call?, if_neg hsuper, if_neg hopen, List.append_nil,
    List.nil_append]

theorem calls_catches (error : Text) (unchecked : ClassType) (exceptions : List Text) :
    (withinCatches (exceptions.map (catchClause error unchecked))).filterMap (call? n) = [] := by
  rw [withinCatches_eq_flatMap, List.flatMap_map, List.filterMap_flatMap]
  exact List.flatMap_eq_nil_iff.mpr fun x _ => rfl

/-- Apart from the methods that help, only the look-up and the access call methods. -/
theorem calls_methodTree (spec : Spec) (result : ResultType) (formals : List FormalParameter)
    (unchecked : ClassType) (hn : n ∉ helperMethods) : ∃ site,
    (spec.methodTree result formals unchecked).calls n =
      ((spec.target.lookupExpr spec.parameters).within .operand).filterMap (call? n) ++
        ((spec.target.accessExpr spec.parameters).within site).filterMap (call? n) := by
  obtain ⟨site, haccess⟩ : ∃ site, ((spec.accessTree result).within).filterMap (call? n) =
      ((spec.target.accessExpr spec.parameters).within site).filterMap (call? n) := by
    cases result with
    | void => exact ⟨.whole, rfl⟩
    | type t => exact ⟨.operand, rfl⟩
  refine ⟨site, ?_⟩
  rw [MethodDeclaration.calls, expressions_methodTree]
  simp only [List.filterMap_append, List.filterMap_cons, call?, calls_startClass hn, calls_walk hn,
    haccess, calls_catches, List.append_nil, List.nil_append]

theorem calls_invoke {x name : Text} {arguments : List Expr}
    (h : (withinAll (.argument name) 0 arguments).filterMap (call? n) = []) :
    ((Expr.invoke (.named x) name arguments).within site).filterMap (call? n) =
      if name = n then [arguments] else [] := by
  simp only [Expr.within, Place.within, List.filterMap_cons, List.filterMap_append, List.filterMap_nil,
    call?, h, List.append_nil]
  by_cases hname : name = n
  · rw [if_pos hname, if_pos hname]
  · rw [if_neg hname, if_neg hname]

end

end MemberAccess.Accessor

namespace MemberAccess.Java

/-- Whether the values of the parameter are arrays of references. An ellipsis is one dimension. -/
def FormalParameter.isReferenceArray (f : FormalParameter) : Bool :=
  let more := if f.isVariadic then 1 else 0
  match f.type with
  | .primitive _ dimensions => 2 ≤ dimensions + more
  | .reference _ dimensions => 1 ≤ dimensions + more

/-- What arrives where arguments are given for an ellipsis of objects. -/
inductive Handed where
  /-- A new array with the values of the expressions. -/
  | elements (es : List Expr)
  /-- The array that is the value of the expression. -/
  | array (e : Expr)

namespace MethodDeclaration

/-- Whether an expression has the type of an array of references, as a parameter can have it. -/
def isReferenceArray (m : MethodDeclaration) : Expr → Bool
  | .place (.named x) => m.parameters.any fun f => f.name = x && f.isReferenceArray
  | _ => false

/-- An array of references that is the only argument is not put into another array. -/
def handed (m : MethodDeclaration) : List Expr → Handed
  | [e] => if m.isReferenceArray e then .array e else .elements [e]
  | es => .elements es

end MethodDeclaration

end MemberAccess.Java

namespace MemberAccess.Accessor

open Java

/-- With the method `access`, `passed` is given after `before` further arguments, and there are as
many classes of arguments in the call of `lookup`. The values of `passed` arrive as the elements of an
array, unless there is one and it is an array of references itself. -/
structure PassesOn (m : MethodDeclaration) (lookup access : Text) (before : Nat)
    (passed : List Expr) : Prop where
  lookup : ∃ names classes, m.calls lookup = [names ++ classes] ∧ names.length = before ∧
    classes.length = passed.length
  access : ∃ receivers, m.calls access = [receivers ++ passed] ∧ receivers.length = before
  handed : (∀ e, passed = [e] → m.isReferenceArray e = false) → m.handed passed = .elements passed
  array : ∀ e, passed = [e] → m.isReferenceArray e = true → m.handed passed = .array e

theorem handed_eq (m : MethodDeclaration) {es : List Expr}
    (h : ∀ e, es = [e] → m.isReferenceArray e = false) : m.handed es = .elements es := by
  match es with
  | [] | _ :: _ :: _ => rfl
  | [e] => rw [MethodDeclaration.handed, h e rfl, if_neg (by decide)]

namespace Spec
variable {spec : Spec} {style : Style} {result : ResultType} {formals : List FormalParameter}
  {unchecked : ClassType} {m : MethodDeclaration}

theorem eq_named_of_blank {ps : List Parameter} {es : List Expr}
    (h : es.map Expr.blank = (ps.map fun p => Expr.named p.name).map Expr.blank) :
    es = ps.map fun p => Expr.named p.name := by
  induction ps generalizing es with
  | nil => exact List.map_eq_nil_iff.mp h
  | cons p ps ih =>
    obtain ⟨e, rest, rfl, he, hrest⟩ := List.map_eq_cons_iff.mp h
    rw [Expr.eq_of_blank_named he, ih hrest, List.map_cons]

theorem passesOn_of_blank {t : MethodDeclaration} {lookup access : Text} {names receivers : List Expr}
    {classes : List Expr} {ps : List Parameter} (h : m.blank = t.blank)
    (hlookup : t.calls lookup = [names ++ classes])
    (haccess : t.calls access = [receivers ++ ps.map fun p => .named p.name])
    (hnames : names.length = receivers.length) (hclasses : classes.length = ps.length) :
    PassesOn m lookup access receivers.length (ps.map fun p => .named p.name) := by
  have hl := MethodDeclaration.calls_eq_of_blank_eq lookup h
  have ha := MethodDeclaration.calls_eq_of_blank_eq access h
  rw [hlookup, List.map_singleton] at hl
  rw [haccess, List.map_singleton] at ha
  obtain ⟨arguments, hl, harguments⟩ := List.map_eq_singleton_iff.mp hl
  obtain ⟨values, ha, hvalues⟩ := List.map_eq_singleton_iff.mp ha
  rw [List.map_append] at harguments hvalues
  obtain ⟨names', classes', rfl, hn, hc⟩ := List.map_eq_append_iff.mp harguments
  obtain ⟨receivers', passed, rfl, hr, hp⟩ := List.map_eq_append_iff.mp hvalues
  have hlength : ∀ {es es' : List Expr}, es.map Expr.blank = es'.map Expr.blank →
      es.length = es'.length := fun he => by simpa using congrArg List.length he
  rw [eq_named_of_blank hp] at ha
  refine ⟨⟨names', classes', hl, (hlength hn).trans hnames, ?_⟩,
    ⟨receivers', ha, hlength hr⟩, handed_eq m, ?_⟩
  · rw [hlength hc, hclasses, List.length_map]
  · intro e he ht
    rw [he, MethodDeclaration.handed, if_pos ht]

theorem calls_lookupExpr {n : Text} {site : Site} (hn : n ∉ helperMethods) (target : Target)
    (parameters : List Parameter) :
    ((target.lookupExpr parameters).within site).filterMap (call? n) =
      if (target.lookupCall parameters).1 = n then [(target.lookupCall parameters).2] else [] := by
  have hclasses : ∀ (ps : List Parameter) (name : Text) (index : Nat),
      (withinAll (.argument name) index (ps.map fun p => classObject p.binaryName)).filterMap
        (call? n) = [] := fun ps name index =>
    calls_withinAll fun p site => calls_classObject hn p.binaryName
  have hliteral : ∀ (x : Text) (site : Site),
      ((stringLiteral x).within site).filterMap (call? n) = [] := fun _ _ => rfl
  refine calls_invoke ?_
  cases target with
  | field => rfl
  | method =>
    simp only [Target.lookupCall, withinAll, List.filterMap_append, hliteral, hclasses,
      List.nil_append]
  | constructor => exact hclasses parameters _ 0

theorem calls_named_all {n : Text} (ps : List Parameter) (sites : Nat → Site) (index : Nat) :
    (withinAll sites index (ps.map fun p => .named p.name)).filterMap (call? n) = [] :=
  calls_withinAll fun p site => calls_named p.name site

theorem calls_access_method {n : Text} {site : Site} (className methodName : Text)
    (parameters : List Parameter) :
    (((Target.method className methodName).accessExpr parameters).within site).filterMap (call? n) =
      if Text.ofString "invoke" = n then
        [[(parameters.head?.map fun p => .named p.name).getD .null] ++
          (parameters.drop 1).map fun p => .named p.name]
      else [] := by
  cases parameters with
  | nil => exact calls_invoke rfl
  | cons p ps => exact calls_invoke (calls_named_all (p :: ps) _ 0)

theorem calls_access_constructor {n : Text} {site : Site} (className : Text)
    (parameters : List Parameter) :
    (((Target.constructor className).accessExpr parameters).within site).filterMap (call? n) =
      if Text.ofString "newInstance" = n then [[] ++ parameters.map fun p => .named p.name] else [] :=
  calls_invoke (calls_named_all parameters _ 0)

theorem calls_of_method (result : ResultType) (formals : List FormalParameter)
    (unchecked : ClassType) {className methodName : Text}
    (ht : spec.target = .method className methodName) :
    (spec.methodTree result formals unchecked).calls "getDeclaredMethod" =
        [[stringLiteral methodName] ++
          (spec.parameters.drop 1).map fun p => classObject p.binaryName] ∧
      (spec.methodTree result formals unchecked).calls "invoke" =
        [[(spec.parameters.head?.map fun p => .named p.name).getD .null] ++
          (spec.parameters.drop 1).map fun p => .named p.name] := by
  have hne : Text.ofString "getDeclaredMethod" ≠ Text.ofString "invoke" := by decide
  obtain ⟨_, hl⟩ := calls_methodTree spec result formals unchecked (n := "getDeclaredMethod") (by decide)
  obtain ⟨_, ha⟩ := calls_methodTree spec result formals unchecked (n := "invoke") (by decide)
  rw [calls_lookupExpr (by decide), ht, calls_access_method] at hl ha
  simp only [Target.lookupCall, if_true, if_neg hne.symm, List.append_nil] at hl ha
  exact ⟨hl, ha⟩

theorem calls_of_constructor (result : ResultType) (formals : List FormalParameter)
    (unchecked : ClassType) {className : Text} (ht : spec.target = .constructor className) :
    (spec.methodTree result formals unchecked).calls "getDeclaredConstructor" =
        [[] ++ spec.parameters.map fun p => classObject p.binaryName] ∧
      (spec.methodTree result formals unchecked).calls "newInstance" =
        [[] ++ spec.parameters.map fun p => .named p.name] := by
  have hne : Text.ofString "getDeclaredConstructor" ≠ Text.ofString "newInstance" := by decide
  obtain ⟨_, hl⟩ := calls_methodTree spec result formals unchecked (n := "getDeclaredConstructor") (by decide)
  obtain ⟨_, ha⟩ := calls_methodTree spec result formals unchecked (n := "newInstance") (by decide)
  rw [calls_lookupExpr (by decide), ht, calls_access_constructor] at hl ha
  simp only [Target.lookupCall, if_true, if_neg hne.symm, List.append_nil,
    List.nil_append] at hl ha
  exact ⟨hl, ha⟩

/-- The parameters are passed on in order: to a method, all but the first, which is its receiver, and
to a constructor, all. -/
theorem passesOn (h : spec.IsTyped style result formals unchecked)
    (hm : parse (spec.assemble style) = .ok m) :
    (∀ className methodName, spec.target = .method className methodName →
      PassesOn m "getDeclaredMethod" "invoke" 1
        ((spec.parameters.drop 1).map fun p => .named p.name)) ∧
    ∀ className, spec.target = .constructor className →
      PassesOn m "getDeclaredConstructor" "newInstance" 0
        (spec.parameters.map fun p => .named p.name) := by
  have hblank := blank_eq_of_parse h hm
  have hnamed : ∀ ps : List Parameter,
      ((ps.map Parameter.nameless).map fun p => Expr.named p.name) =
        ps.map fun p => Expr.named p.name := fun ps => by
    rw [List.map_map]
    rfl
  constructor
  · intro className methodName ht
    have ht' : spec.nameless.target = .method (primitiveName className) [] := by
      rw [nameless, ht, Target.nameless]
    obtain ⟨hlookup, haccess⟩ := calls_of_method result formals unchecked ht'
    have hpasses := passesOn_of_blank hblank hlookup haccess rfl (by simp)
    rwa [nameless, ← List.map_drop, hnamed] at hpasses
  · intro className ht
    have ht' : spec.nameless.target = .constructor (primitiveName className) := by
      rw [nameless, ht, Target.nameless]
    obtain ⟨hlookup, haccess⟩ := calls_of_constructor result formals unchecked ht'
    have hpasses := passesOn_of_blank hblank hlookup haccess rfl (by simp)
    rwa [nameless, hnamed] at hpasses

theorem passesOn_numbers :
    let spec : Spec := ⟨"make", true, "C", [⟨"int...", "xs", "int..."⟩], .constructor "C"⟩
    let style : Style := ⟨"\t", "E"⟩
    let formals : List FormalParameter := [⟨[], .primitive .int 0, true, "xs"⟩]
    let result : ResultType := .type (.reference (.mk "C" []) 0)
    spec.IsTyped style result formals (.mk "E" []) ∧ ∃ m, parse (spec.assemble style) = .ok m ∧
      PassesOn m "getDeclaredConstructor" "newInstance" 0 [.named "xs"] := by
  intro spec style formals result
  have hint : Nonterminal.type.Derives [keywordLexeme (.primitive .int)] (.primitive .int 0) :=
    .intro (.head _) (.node (u := [keywordLexeme (.primitive .int)])
      (.intro (List.mem_map.mpr ⟨.int, by decide, rfl⟩) (.skip (.nil _)))
      (.last (Nonterminal.derives_dimensions_zero.mpr rfl) rfl))
  have hvalues : Declares ⟨"int...", "xs", "int..."⟩ ⟨[], .primitive .int 0, true, "xs"⟩ :=
    ⟨by decide +kernel, rfl, rfl, [keywordLexeme (.primitive .int)], [markLexeme .ellipsis],
      by decide +kernel, hint, Nonterminal.derives_flag.mpr (.inl ⟨⟨_, rfl⟩, rfl⟩)⟩
  have h : spec.IsRegular style result formals (.mk "E" []) :=
    { isIdentifier := by decide +kernel
      returns := ⟨[nameLexeme "C"], by decide +kernel, type_of_name "C"⟩
      declares := .cons hvalues .nil
      isChecked := rfl
      targetNames := by decide
      binaryNames := by decide
      indent := rfl
      throws := ⟨[nameLexeme "E"], by decide +kernel, classType_of_name "E"⟩ }
  have hm := (phrase_assemble h).parse_of_padded
    (padded_assemble spec style.uncheckedException h.indent)
  exact ⟨h.isTyped, _, hm, (passesOn h.isTyped hm).2 "C" rfl⟩

/-- The only argument of a constructor is an array of objects, which is what arrives. -/
theorem exists_array_handed :
    let spec : Spec := ⟨"make", true, "C", [⟨"String[]", "names", "String[]"⟩], .constructor "C"⟩
    ∃ m, parse (spec.assemble {}) = .ok m ∧ m.calls "newInstance" = [[.named "names"]] ∧
      m.handed [.named "names"] = .array (.named "names") := by
  intro spec
  have harray : Nonterminal.type.Derives
      [nameLexeme "String", markLexeme .leftBracket, markLexeme .rightBracket]
      (.reference (.mk "String" []) 1) :=
    .intro (.tail _ (.head _)) (.node (u := [nameLexeme "String"]) (classType_of_name "String")
      (.last (Nonterminal.derives_dimensions_succ.mpr
        ⟨_, _, [], rfl, Nonterminal.derives_dimensions_zero.mpr rfl⟩) rfl))
  have hnames : Declares ⟨"String[]", "names", "String[]"⟩
      ⟨[], .reference (.mk "String" []) 1, false, "names"⟩ :=
    ⟨by decide +kernel, rfl, rfl, _, [], by decide +kernel, harray,
      Nonterminal.derives_flag.mpr (.inr ⟨rfl, rfl⟩)⟩
  have h : spec.IsRegular {} (.type (.reference (.mk "C" []) 0)) _
      (.mk "java.lang.RuntimeException" []) :=
    { isIdentifier := by decide +kernel
      returns := ⟨[nameLexeme "C"], by decide +kernel, type_of_name "C"⟩
      declares := .cons hnames .nil
      isChecked := rfl
      targetNames := by decide
      binaryNames := by decide
      indent := rfl
      throws := ⟨_, by decide +kernel, classType_of_names ["java", "lang", "RuntimeException"]
        (by simp)⟩ }
  have hm := (phrase_assemble h).parse_of_padded (padded_assemble spec _ h.indent)
  exact ⟨_, hm, (calls_of_constructor _ _ _ rfl).2, rfl⟩

end Spec

end MemberAccess.Accessor
