import MemberAccess.Accessor.Spec
import MemberAccess.Proofs.Accessor.LocalNames
import MemberAccess.Proofs.Java.Phrase.Statement
import MemberAccess.Proofs.Java.TypeName
import MemberAccess.Proofs.Text.Indent

/-!
# Trees of accessor methods

Each piece of code that accesses a member is meant to be a certain tree, and it is read as that tree.
-/

namespace MemberAccess.Accessor

open Java Java.Nonterminal

/-- No line of printed text ends inside of the name. -/
def IsOneLine (name : Text) : Prop := ∀ c ∈ name, c.isLineBoundary = false

instance (name : Text) : Decidable (IsOneLine name) := inferInstanceAs (Decidable (∀ c ∈ name, _))

theorem IsOneLine.quotable_loadable {i : Bool} {name : Text} (h : IsOneLine name) :
    Quotable i (TypeName.loadable name) := by
  have hmarks : ∀ c ∈ TypeName.descriptorMarks, c.isLineBoundary = false := by decide
  exact .of_isOneLine fun c hc => (TypeName.mem_of_mem_loadable hc).elim (h c) (hmarks c)

variable {i : Bool}

abbrev stringLiteral (x : Text) : Expr := .literal ⟨.string, TypeName.quote x⟩

def classObject (name : Text) : Expr :=
  match TypeName.primitive? name with
  | some p => .classLiteral (.type (.primitive p 0))
  | none =>
    if name = "void" then .classLiteral .void
    else .invoke (.place (.field (.place (.field (.named "java") "lang")) "Class")) "forName"
      [stringLiteral (TypeName.loadable name)]

theorem phrase_classObject {name : Text} (h : Quotable i (TypeName.loadable name)) :
    Phrase i primary (TypeName.classExpression name) (classObject name) := by
  rw [TypeName.classExpression, TypeName.isPrimitive, classObject]
  cases hp : TypeName.primitive? name with
  | some p =>
    obtain rfl := TypeName.primitive?_eq_some_iff.mp hp
    exact .primitiveClass p
  | none =>
    simp only [Option.isSome_none, Bool.false_or, decide_eq_true_eq]
    split
    · rename_i hvoid
      subst hvoid
      exact .voidClass
    · exact (Phrase.forName (.string h)).congr (by simp [Text.ofString])

def startClass (receiver : Option Text) (className : Text) : Expr :=
  match receiver with
  | none => classObject className
  | some x =>
    .conditional (.binary .equal (.named x) .null) (classObject className)
      (.invoke (.named x) "getClass" [])

theorem phrase_startClass {receiver : Option Text} {className : Text}
    (hr : ∀ x ∈ receiver, IsIdentifier x) (h : Quotable i (TypeName.loadable className)) :
    Phrase i expression (receiverClass receiver className) (startClass receiver className) := by
  have hclass := (phrase_classObject h)
  cases receiver with
  | none => exact hclass.expression_of_primary
  | some x =>
    have hx : IsIdentifier x := hr x rfl
    have hcall := Phrase.invoke (i := i) (y := "getClass") hx (by decide +kernel) .nil
    have hchoice := Phrase.ifNull (.named hx) hclass.expression_of_primary hcall
    exact hchoice.congr (by simp [receiverClass, Text.ofString])

theorem Target.mem_of_mem_receiver? {parameters : List Parameter} {x : Text} (target : Target)
    (hx : x ∈ target.receiver? parameters) : x ∈ parameters.map (·.name) := by
  have hhead : x ∈ parameters.head?.map (·.name) → x ∈ parameters.map (·.name) := by
    intro hx
    obtain ⟨p, hp, rfl⟩ := Option.map_eq_some_iff.mp (Option.mem_def.mp hx)
    exact List.mem_map_of_mem (List.mem_of_head? hp)
  cases target with
  | field access =>
    cases access with
    | get => exact hhead hx
    | set =>
      simp only [Target.receiver?] at hx
      split at hx
      · cases hx
      · exact hhead hx
  | method => exact hhead hx
  | constructor => cases hx

theorem isIdentifier_of_mem_receiver? {parameters : List Parameter} (target : Target)
    (h : ∀ p ∈ parameters, IsIdentifier p.name) :
    ∀ x ∈ target.receiver? parameters, IsIdentifier x := by
  intro x hx
  obtain ⟨p, hp, rfl⟩ := List.mem_map.mp (target.mem_of_mem_receiver? hx)
  exact h p hp

theorem forall₂_map {A : Type} {n : Nonterminal} {f : A → Text} {g : A → n.Value} {as : List A}
    (h : ∀ a ∈ as, Phrase i n (f a) (g a)) : List.Forall₂ (Phrase i n) (as.map f) (as.map g) :=
  List.forall₂_map_left_iff.mpr (List.forall₂_map_right_iff.mpr (List.forall₂_same.mpr h))

namespace Target

def names : Target → List Text
  | field _ className fieldName => [className, fieldName]
  | method className methodName => [className, methodName]
  | constructor className => [className]

/-- The method of a class that looks the member up, and its arguments. -/
def lookupCall (parameters : List Parameter) : Target → Text × List Expr
  | field _ _ fieldName => ("getDeclaredField", [stringLiteral fieldName])
  | method _ methodName =>
    ("getDeclaredMethod",
      stringLiteral methodName :: (parameters.drop 1).map fun p => classObject p.binaryName)
  | constructor _ =>
    ("getDeclaredConstructor", parameters.map fun p => classObject p.binaryName)

def lookupExpr (parameters : List Parameter) (target : Target) : Expr :=
  let lookup := target.lookupCall parameters
  .invoke (.named (LocalNames.of parameters).klass) lookup.1 lookup.2

/-- The names that stand in literals of a look-up. -/
def quotedNames (parameters : List Parameter) : Target → List Text
  | field _ _ fieldName => [fieldName]
  | method _ methodName =>
    methodName :: (parameters.drop 1).map fun p => TypeName.loadable p.binaryName
  | constructor _ => parameters.map fun p => TypeName.loadable p.binaryName

variable {target : Target} {parameters : List Parameter}

theorem quotable_of_isOneLine (hn : ∀ x ∈ target.names, IsOneLine x)
    (hp : ∀ p ∈ parameters, IsOneLine p.binaryName) :
    ∀ x ∈ target.quotedNames parameters, Quotable i x := by
  have hclass : ∀ ps ⊆ parameters, ∀ x ∈ ps.map fun p => TypeName.loadable p.binaryName,
      Quotable i x := by
    intro ps hps x hx
    obtain ⟨p, hm, rfl⟩ := List.mem_map.mp hx
    exact (hp p (hps hm)).quotable_loadable
  cases target with
  | field access className fieldName =>
    exact List.forall_mem_singleton.mpr (.of_isOneLine (hn fieldName (by simp [names])))
  | method className methodName =>
    exact List.forall_mem_cons.mpr ⟨.of_isOneLine (hn methodName (by simp [names])),
      hclass _ (List.drop_subset 1 parameters)⟩
  | constructor className => exact hclass parameters (List.Subset.refl _)

theorem exists_lookup (h : ∀ x ∈ target.quotedNames parameters, Quotable i x) :
    ∃ xs, target.lookup parameters = call (target.lookupCall parameters).1 xs ∧
      IsIdentifier (target.lookupCall parameters).1 ∧
      List.Forall₂ (Phrase i expression) xs (target.lookupCall parameters).2 := by
  have hname {name : Text} (hx : Quotable i name) :
      Phrase i expression (TypeName.quote name) (stringLiteral name) :=
    (Phrase.string hx).expression_of_primary
  have hclass {ps : List Parameter}
      (hps : ∀ x ∈ ps.map fun p => TypeName.loadable p.binaryName, Quotable i x) :
      List.Forall₂ (Phrase i expression) (ps.map fun p => TypeName.classExpression p.binaryName)
        (ps.map fun p => classObject p.binaryName) :=
    forall₂_map fun p hm =>
      (phrase_classObject (List.forall_mem_map.mp hps p hm)).expression_of_primary
  cases target with
  | field access className fieldName =>
    exact ⟨_, rfl, (by decide +kernel : IsIdentifier "getDeclaredField"),
      .cons (hname (h _ (.head _))) .nil⟩
  | method className methodName =>
    have h := List.forall_mem_cons.mp h
    exact ⟨_, rfl, (by decide +kernel : IsIdentifier "getDeclaredMethod"),
      .cons (hname h.1) (hclass h.2)⟩
  | constructor className =>
    exact ⟨_, rfl, (by decide +kernel : IsIdentifier "getDeclaredConstructor"), hclass h⟩

theorem phrase_lookup (h : ∀ x ∈ target.quotedNames parameters, Quotable i x) :
    Phrase i expression
      ((LocalNames.of parameters).klass ++ "." ++ target.lookup parameters)
      (target.lookupExpr parameters) := by
  obtain ⟨xs, hx, hname, hargs⟩ := exists_lookup h
  have hcall := Phrase.invoke (LocalNames.isIdentifier_klass parameters) hname hargs
  exact hcall.expression_of_primary.congr (by simp [hx, call])

def accessExpr (parameters : List Parameter) (target : Target) : Expr :=
  let member : Expr := .named (LocalNames.of parameters).member
  let arguments : List Expr := parameters.map fun p => .named p.name
  match target with
  | field kind _ _ =>
    let receiver : Expr := ((target.receiver? parameters).map .named).getD .null
    match kind with
    | .get => .invoke member "get" [receiver]
    | .set => .invoke member "set" [receiver, .named (valueName parameters)]
  | method .. => .invoke member "invoke" (if parameters.isEmpty then [.null] else arguments)
  | constructor _ => .invoke member "newInstance" arguments

theorem phrase_receiver {receiver : Option Text} (h : ∀ x ∈ receiver, IsIdentifier x) :
    Phrase i expression ((Parameter.known? receiver).getD "null")
      ((receiver.map .named).getD .null) := by
  cases receiver with
  | none => exact Phrase.null.expression_of_primary
  | some x =>
    have hx : IsIdentifier x := h x rfl
    have hne : x.isEmpty = false := by
      cases x with
      | nil => exact absurd hx (by decide)
      | cons => rfl
    have hknown : Parameter.known? (some x) = some x := by simp [Parameter.known?, hne]
    rw [hknown]
    exact (Phrase.named hx).expression_of_primary

/-- A write has a parameter for its value. -/
theorem valueName_mem {className fieldName : Text}
    (hc : (field .set className fieldName).check parameters = .ok ()) :
    valueName parameters ∈ parameters.map (·.name) := by
  have hne : parameters ≠ [] := by
    rintro rfl
    cases hc
  rw [valueName, List.getLast?_eq_some_getLast hne]
  exact List.mem_map_of_mem (List.getLast_mem hne)

theorem isIdentifier_valueName {className fieldName : Text}
    (hp : ∀ p ∈ parameters, IsIdentifier p.name)
    (hc : (field .set className fieldName).check parameters = .ok ()) :
    IsIdentifier (valueName parameters) := by
  obtain ⟨p, hm, hname⟩ := List.mem_map.mp (valueName_mem hc)
  exact hname ▸ hp p hm

theorem phrase_access (hp : ∀ p ∈ parameters, IsIdentifier p.name)
    (hc : target.check parameters = .ok ()) :
    Phrase i primary (target.access parameters) (target.accessExpr parameters) := by
  have hmember := LocalNames.isIdentifier_member parameters
  have harguments : List.Forall₂ (Phrase i expression) (parameters.map (·.name))
      (parameters.map fun p => .named p.name) :=
    forall₂_map fun p hm => (Phrase.named (hp p hm)).expression_of_primary
  cases target with
  | field access className fieldName =>
    have hreceiver := phrase_receiver (i := i)
      (isIdentifier_of_mem_receiver? (.field access className fieldName) hp)
    cases access with
    | get =>
      have hcall := Phrase.invoke (y := "get") hmember (by decide +kernel) (.cons hreceiver .nil)
      exact hcall.congr (by simp [Target.access, call, Text.ofString])
    | set =>
      have hvalue := (Phrase.named (i := i) (isIdentifier_valueName hp hc)).expression_of_primary
      have hcall := Phrase.invoke (y := "set") hmember (by decide +kernel)
        (.cons hreceiver (.cons hvalue .nil))
      exact hcall.congr (by simp [Target.access, call, Text.ofString])
  | method className methodName =>
    rw [Target.access, accessExpr]
    split
    · have hcall := Phrase.invoke (i := i) (y := "invoke") hmember (by decide +kernel)
        (.cons Phrase.null.expression_of_primary .nil)
      exact hcall.congr (by simp [call, Text.ofString])
    · have hcall := Phrase.invoke (y := "invoke") hmember (by decide +kernel) harguments
      exact hcall.congr (by simp [call, Text.ofString])
  | constructor className =>
    have hcall := Phrase.invoke (y := "newInstance") hmember (by decide +kernel) harguments
    exact hcall.congr (by simp [Target.access, call, Text.ofString])

end Target

/-- A look-up that is repeated on each class above, up to the last. -/
def walk (names : LocalNames) (lookup : Expr) (notFound : Text) : List BlockStatement :=
  let onError : List BlockStatement :=
    [.statement (.expression (.assign (.named names.klass)
      (.invoke (.named names.klass) "getSuperclass" []))),
     .statement (.ifThen (.binary .equal (.named names.klass) .null)
      (.throw_ (.named names.error)))]
  let attempt : Statement :=
    .try_ (.mk [.statement (.expression (.assign (.named names.member) lookup))])
      [.mk [] [.mk notFound []] names.error (.mk onError)] none
  [.statement (.while_ (.binary .equal (.named names.member) .null)
     (.block (.mk [.statement attempt]))),
   .statement (.expression
     (.invoke (.named names.member) "setAccessible" [.literal ⟨.boolean, "true"⟩]))]

theorem phrase_walk {names : LocalNames} {lookup notFound : Text} {e : Expr}
    (hk : IsIdentifier names.klass) (hm : IsIdentifier names.member) (he : IsIdentifier names.error)
    (hl : Phrase i expression (names.klass ++ "." ++ lookup) e)
    (hn : Clause i classType notFound (.mk notFound [])) :
    Phrase i (many blockStatement) (superclassWalk names lookup notFound) (walk names e notFound) := by
  have hsuper := Phrase.invoke (i := i) (y := "getSuperclass") hk (by decide +kernel) .nil
  have hup := (Phrase.assign hk hsuper.expression_of_primary).ended.statement
  have hstop := Phrase.if_ (Phrase.named (i := i) hk).equalNull (Phrase.named he).expression_of_primary.throw
  have hcatch := Phrase.catch_ hn he (.block "\n        " "\n    " (by decide) (by decide)
    (hup.cons (.append (by decide) _) (hstop.singleton.spaces (x := "\n        ") (by decide))))
  have hattempt := Phrase.block "\n        " "\n    " (by decide) (by decide)
    (Phrase.assign hm hl).ended.statement.singleton
  have htry := Phrase.try_ hattempt (hcatch.singleton.spaces (x := "\n    ") (by decide))
    (.append (by decide) _)
  have hloop := Phrase.while_ (Phrase.named hm).equalNull
    (Phrase.block "\n    " "\n" (by decide) (by decide) htry.statement.singleton).simple
  have hopen := Phrase.invoke (i := i) (y := "setAccessible") hm (by decide +kernel)
    (.cons Phrase.true_.expression_of_primary .nil)
  have hall := hloop.cons (.append (by decide) _)
    (hopen.expression_of_primary.ended.statement.singleton.spaces (x := "\n") (by decide))
  exact hall.congr (by simp [superclassWalk, Text.join_cons_cons, Text.ofString])

theorem clause_exception (target : Target) :
    ∀ x ∈ target.exceptions, Clause i classType x (.mk x []) := by
  have hreads : ∀ target ∈ [Target.field .get [] [], .method [] [], .constructor []],
      ∀ x ∈ target.exceptions, ReadsAs x (dotted (x.splitOn '.')) := by decide +kernel
  refine fun x hx => clause_of_names ?_
  cases target with
  | field => exact hreads (.field .get [] []) (by simp) x hx
  | method => exact hreads (.method [] []) (by simp) x hx
  | constructor => exact hreads (.constructor []) (by simp) x hx

namespace Target

def memberTypeExpr : Target → TypeExpr
  | field .. => .reference (.mk "java.lang.reflect.Field" []) 0
  | method .. => .reference (.mk "java.lang.reflect.Method" []) 0
  | constructor _ => .reference (.mk "java.lang.reflect.Constructor" [.any]) 0

theorem clause_memberType (target : Target) :
    Clause i type target.memberType target.memberTypeExpr := by
  cases target with
  | field =>
    have h : Clause i classType "java.lang.reflect.Field" _ := clause_of_names (by decide +kernel)
    exact h.reference
  | method =>
    have h : Clause i classType "java.lang.reflect.Method" _ := clause_of_names (by decide +kernel)
    exact h.reference
  | constructor =>
    have hd := classType_of_parts (classTypePart_of_name "java")
      (.cons (classTypePart_of_name "lang") (.cons (classTypePart_of_name "reflect")
        (.cons (classTypePart_any "Constructor") .nil)))
    have h : Clause i classType "java.lang.reflect.Constructor<?>" _ :=
      clause_of_readsAs (by decide +kernel) hd (by decide)
    exact h.reference

end Target

def classObjectType : TypeExpr := .reference (.mk "java.lang.Class" [.any]) 0

theorem clause_classObjectType : Clause i type "java.lang.Class<?>" classObjectType := by
  have hd := classType_of_parts (classTypePart_of_name "java")
    (.cons (classTypePart_of_name "lang") (.cons (classTypePart_any "Class") .nil))
  exact (clause_of_readsAs (by decide +kernel) hd (by decide)).reference

/-- A clause that throws the unchecked exception in place of another. -/
def catchClause (error : Text) (unchecked : ClassType) (exception : Text) : CatchClause :=
  .mk [] [.mk exception []] error (.mk [.statement (.throw_ (.new unchecked [.named error]))])

theorem phrase_catchBlock (style : Style) {error exception : Text} {unchecked : ClassType}
    (he : IsIdentifier error) (hu : Clause i classType style.uncheckedException unchecked)
    (hx : Clause i classType exception (.mk exception [])) :
    Phrase i Nonterminal.catchClause (style.catchBlock error exception)
      (catchClause error unchecked exception) := by
  have hnew := Phrase.new hu (.cons (Phrase.named he).expression_of_primary .nil)
  have hblock := Phrase.block " " " " (by decide) (by decide)
    hnew.expression_of_primary.throw.statement.singleton
  exact (Phrase.catch_ hx he hblock).congr (by simp [Style.catchBlock, Text.ofString])

namespace Spec

/-- The statement that accesses the member. A result is cast to the type of the method. -/
def accessTree (spec : Spec) (result : ResultType) : Statement :=
  let access := spec.target.accessExpr spec.parameters
  match result with
  | .void => .expression access
  | .type t => .return_ (some (.cast t access))

/-- The search for the member and the access. -/
def accessStatements (spec : Spec) (result : ResultType) : List BlockStatement :=
  let names := LocalNames.of spec.parameters
  let start := startClass (spec.target.receiver? spec.parameters) spec.target.className
  let lookup := spec.target.lookupExpr spec.parameters
  .declaration [] classObjectType [⟨names.klass, 0, some start⟩] ::
  .declaration [] spec.target.memberTypeExpr [⟨names.member, 0, some .null⟩] ::
  (walk names lookup spec.target.notFound ++ [.statement (spec.accessTree result)])

/-- The body of the method, in which checked exceptions are replaced. -/
def bodyTree (spec : Spec) (result : ResultType) (unchecked : ClassType) : Block :=
  let error := (LocalNames.of spec.parameters).error
  .mk [.statement (.try_ (.mk (spec.accessStatements result))
    (spec.target.exceptions.map (catchClause error unchecked)) none)]

/-- The text is `void` or a type, as the result is. -/
def Returns (x : Text) : ResultType → Prop
  | .void => x = "void"
  | .type t => ∃ w, ReadsAs x w ∧ type.Derives w t

/-- What stands in the text of the method stands for what it is to stand for: names are identifiers,
quoted names have one line, and there is a value to be written. -/
structure IsWritable (spec : Spec) (result : ResultType) : Prop where
  returns : Returns spec.returnType result
  names : ∀ p ∈ spec.parameters, IsIdentifier p.name
  isChecked : spec.target.check spec.parameters = .ok ()
  targetNames : ∀ x ∈ spec.target.names, IsOneLine x
  binaryNames : ∀ p ∈ spec.parameters, IsOneLine p.binaryName

variable {spec : Spec} {result : ResultType}

/-- The result of a method that returns something is not written `void`. -/
theorem returnType_ne_void {x : Text} {t : TypeExpr} (h : Returns x (.type t)) : x ≠ "void" := by
  rintro rfl
  obtain ⟨w, hr, hd⟩ := h
  have hw : (scan "void").tokens.map (·.toLexeme) = [keywordLexeme .void] := by decide +kernel
  have hh := firstTable.heads_of_is hd.is
  rw [← hr.tokens, hw] at hh
  exact absurd hh (not_heads_cons (by decide))

theorem phrase_accessStatement (h : spec.IsWritable result) :
    Phrase i blockStatement spec.accessStatement (.statement (spec.accessTree result)) := by
  have haccess := Target.phrase_access (i := i) h.names h.isChecked
  rw [accessStatement]
  cases result with
  | void =>
    rw [if_pos (show spec.returnType = _ from h.returns)]
    exact haccess.expression_of_primary.ended.statement
  | type t =>
    rw [if_neg (returnType_ne_void h.returns)]
    obtain ⟨w, hr, hd⟩ := h.returns
    have hcast := Phrase.cast (clause_of_readsAs hr hd (by decide)) haccess
    exact hcast.return_.statement.congr (by simp [Text.ofString])

theorem className_mem_names (target : Target) : target.className ∈ target.names := by
  cases target <;> simp [Target.className, Target.names]

theorem phrase_notFound (target : Target) :
    Clause i classType target.notFound (.mk target.notFound []) :=
  clause_exception target _ (by simp [Target.exceptions])

theorem phrase_accessCode (h : spec.IsWritable result) :
    Phrase i (many blockStatement) spec.accessCode (spec.accessStatements result) := by
  have hklass := LocalNames.isIdentifier_klass spec.parameters
  have hmember := LocalNames.isIdentifier_member spec.parameters
  have herror := LocalNames.isIdentifier_error spec.parameters
  have hstart := phrase_startClass (i := i) (isIdentifier_of_mem_receiver? spec.target h.names)
    (h.targetNames _ (className_mem_names spec.target)).quotable_loadable
  have hwalk := phrase_walk (i := i) hklass hmember herror
    (Target.phrase_lookup (Target.quotable_of_isOneLine h.targetNames h.binaryNames))
    (phrase_notFound spec.target)
  have hend := hwalk.append (.append (by decide) _)
    ((phrase_accessStatement h).singleton.spaces (x := "\n") (by decide))
  have hfound := (Phrase.declaration (Target.clause_memberType spec.target) hmember
    Phrase.null.expression_of_primary).cons (.append (by decide) _)
      (hend.spaces (x := "\n") (by decide))
  have hall := (Phrase.declaration clause_classObjectType hklass hstart).cons (.append (by decide) _)
    (hfound.spaces (x := "\n") (by decide))
  refine hall.congr ?_
  simp [accessCode, Target.classLookup, Target.memberLookup, Text.join_cons_cons, Text.ofString]

theorem phrase_body {uncheckedException : Text} {unchecked : ClassType} (h : spec.IsWritable result)
    (hu : Clause i classType uncheckedException unchecked) :
    Phrase i block ("\x7b\n" ++ (spec.body ⟨[], uncheckedException⟩ ++ "\n\x7d"))
      (spec.bodyTree result unchecked) := by
  have herror := LocalNames.isIdentifier_error spec.parameters
  have hattempt := Phrase.block (i := i) "\n" "\n" (by decide) (by decide) (phrase_accessCode h)
  have hcatches := Phrase.lines (forall₂_map fun x hx =>
    phrase_catchBlock ⟨[], uncheckedException⟩ herror hu (clause_exception spec.target x hx))
  obtain ⟨x, xs, hx⟩ : ∃ x xs, spec.target.exceptions = x :: xs := ⟨_, _, rfl⟩
  rw [hx, List.map_cons, List.map_cons, List.flatMap_cons] at hcatches
  have htry := Phrase.try_ hattempt hcatches ((BeginsApart.append (by decide) _).append _)
  have hblock := Phrase.block "\n" "\n" (by decide) (by decide) htry.statement.singleton
  rw [bodyTree, hx, List.map_cons]
  refine hblock.congr ?_
  simp [body, hx, Text.indent_nil, Text.join_cons, Text.ofString]

end Spec

end MemberAccess.Accessor
