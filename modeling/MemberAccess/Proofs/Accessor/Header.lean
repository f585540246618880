import MemberAccess.Proofs.Accessor.LifeCycle
import MemberAccess.Proofs.Java.Header
import MemberAccess.Proofs.Java.Shape
import MemberAccess.Proofs.Java.Wording

/-!
# What accessor methods are called and take

Names and types are put into method text as they are configured. If the names are identifiers and
the types are types, a method that is built has the name, the parameters and the result that were
configured, whatever else is in its text.
-/

namespace MemberAccess.Accessor

open Java Java.Lexer Java.Nonterminal

/-- The parameter is written like the formal parameter, which has no modifiers. -/
structure Declares (p : Parameter) (f : FormalParameter) : Prop where
  isIdentifier : IsIdentifier p.name
  name_eq : f.name = p.name
  modifiers_eq : f.modifiers = []
  readsAs : ∃ u e, ReadsAs p.type (u ++ e) ∧ type.Derives u f.type ∧
    (flag (.mark .ellipsis)).Derives e f.isVariadic

/-- The name is an identifier, and the types are written like those of the result and the formal
parameters. -/
structure IsDeclared (name returnType : Text) (parameters : List Parameter) (result : ResultType)
    (formals : List FormalParameter) : Prop where
  isIdentifier : IsIdentifier name
  readsAs : ∃ w, ReadsAs returnType w ∧ Nonterminal.result.Derives w result
  declares : List.Forall₂ Declares parameters formals

def keywords (isStatic : Bool) : List ModifierKeyword :=
  if isStatic then [.public_, .static] else [.public_]

variable {i : Bool} {t : Text} {w : List Java.Lexeme}

theorem worded_keywords (ks : List ModifierKeyword) (ht : Worded i t w) :
    Worded i (ks.flatMap (fun k => k.text ++ Text.ofString " ") ++ t)
      (ks.map (fun k => keywordLexeme (.modifier k)) ++ w) := by
  induction ks with
  | nil => exact ht
  | cons k ks ih =>
    rw [List.flatMap_cons, List.append_assoc, List.append_assoc, List.map_cons, List.cons_append]
    exact .keyword (.modifier k) (beginsWith_separator (by decide)) (.space (by decide) ih)

theorem worded_result {x : Text} {r : ResultType} (h : ReadsAs x w) (hr : result.Derives w r) :
    Worded i x w := by
  refine h.worded ?_
  rcases is_result_iff.mp hr.is with ⟨v, hv⟩ | ⟨y, rfl⟩
  · exact unquoted_of_derives hv (by decide)
  · simp

theorem Declares.exists_worded {p : Parameter} {f : FormalParameter} (h : Declares p f) :
    ∃ u, Worded i (p.type ++ Text.ofString " " ++ p.name) u ∧ formalParameter.Derives u f := by
  obtain ⟨u, e, hr, hu, he⟩ := h.readsAs
  have hname : Worded i (CodePoint.ofChar ' ' :: p.name) [nameLexeme p.name] := by
    have := Worded.name (i := i) (t := []) h.isIdentifier rfl .nil
    rw [List.append_nil] at this
    exact .space (by decide) this
  have hq : ∀ l ∈ u ++ e, l.terminal ∉ [.character, .string] := by
    refine List.forall_mem_append.mpr ⟨unquoted_of_derives hu (by decide), ?_⟩
    rcases derives_flag.mp he with ⟨⟨x, rfl⟩, -⟩ | ⟨rfl, -⟩ <;> simp
  refine ⟨u ++ (e ++ [nameLexeme p.name]), ?_, ?_⟩
  · have := (hr.worded hq).append (by decide) hname
    simpa [Text.ofString] using this
  · have hf : f = ⟨[], f.type, f.isVariadic, p.name⟩ := by
      rw [← h.modifiers_eq, ← h.name_eq]
    rw [hf]
    exact .intro (.head _) (.node (u := []) .nil (.node hu (.node he (.take (.nil _)))))

theorem exists_forall₂_worded {ps : List Parameter} {fs : List FormalParameter}
    (h : List.Forall₂ Declares ps fs) :
    ∃ us, List.Forall₂ (Worded i) (ps.map fun p => p.type ++ Text.ofString " " ++ p.name) us ∧
      List.Forall₂ formalParameter.Derives us fs := by
  induction h with
  | nil => exact ⟨[], .nil, .nil⟩
  | cons hd _ ih =>
    obtain ⟨u, hs, hu⟩ := hd.exists_worded
    obtain ⟨us, hss, hus⟩ := ih
    exact ⟨u :: us, .cons hs hss, .cons hu hus⟩

namespace Spec
variable {spec : Spec} {r : ResultType} {fs : List FormalParameter}

theorem header_eq (spec : Spec) :
    spec.header = (keywords spec.isStatic).flatMap (fun k => k.text ++ Text.ofString " ") ++
      (spec.returnType ++ CodePoint.ofChar ' ' :: (spec.name ++
        (Text.ofString "(" ++ Text.join (Text.ofString ", ")
          (spec.parameters.map fun p => p.type ++ Text.ofString " " ++ p.name) ++
            Text.ofString ")"))) := by
  have hk : Text.ofString (if spec.isStatic then "public static " else "public ") =
      (keywords spec.isStatic).flatMap (fun k => k.text ++ Text.ofString " ") := by
    cases spec.isStatic <;> decide
  rw [header, hk, call]
  simp [Text.ofString]

/-- The header of an accessor method is read as it was configured. -/
theorem exists_header (h : IsDeclared spec.name spec.returnType spec.parameters r fs) :
    ∃ w, Worded i spec.header w ∧
      IsHeader w (ofHeader ((keywords spec.isStatic).map .keyword) none r spec.name fs) := by
  obtain ⟨hname, ⟨v, hread, hresult⟩, hdeclares⟩ := h
  obtain ⟨us, hworded, hformals⟩ := exists_forall₂_worded (i := i) hdeclares
  have hlist := Worded.parenthesized hworded .nil
  rw [List.append_nil] at hlist
  have hmethod := Worded.name hname (beginsWith_separator (by decide)) hlist
  have hrest := (worded_result hread hresult).append (c := ' ') (by decide)
    (.space (by decide) hmethod)
  refine ⟨_, ?_, .node (derives_modifiers _) (.node (derives_opt_none.mpr rfl) (.node hresult
    (.take (.last (derives_formalParameters hformals) rfl))))⟩
  rw [header_eq]
  exact worded_keywords _ hrest

/-- A method that is read from the text of an accessor begins as it was configured. -/
theorem header_of_parse {style : Style} {m : MethodDeclaration}
    (h : IsDeclared spec.name spec.returnType spec.parameters r fs)
    (hm : parse (spec.assemble style) = .ok m) :
    { m with throws := [], body := none } =
      ofHeader ((keywords spec.isStatic).map .keyword) none r spec.name fs := by
  obtain ⟨w, hw, hheader⟩ := exists_header (i := true) h
  obtain ⟨rest, hrest⟩ : ∃ rest, spec.assemble style =
      (spec.header ++ Text.ofString " \x7b") ++ CodePoint.ofChar '\n' :: rest :=
    ⟨Text.indent style.indent (spec.body style) ++ "\n\x7d\n", by simp [assemble, Text.ofString]⟩
  have hbrace : Worded true (spec.header ++ Text.ofString " \x7b") (w ++ [markLexeme .leftBrace]) := by
    have hb : ReadBefore [] (.mark .leftBrace) Mark.leftBrace.text := .mark (.intro _ rfl)
    exact hw.append (c := ' ') (by decide)
      (.space (by decide) (.lexeme hb (clean_mark (by decide)) .nil))
  have hbalanced : Balanced ((spec.header ++ Text.ofString " \x7b") ++ [CodePoint.ofChar '\n']) :=
    hbrace.balanced.append (.of_forall_ne (by decide))
  have hunescape : unescape (spec.assemble style) =
      (spec.header ++ Text.ofString " \x7b") ++ CodePoint.ofChar '\n' :: unescape rest := by
    have := hbalanced.unescape_append rest
    rw [hrest]
    simpa using this
  obtain ⟨tokens, hs, hd⟩ := derives_of_parse hm
  rw [hunescape] at hs
  obtain ⟨begun, hb, hbw⟩ := hbrace.spelled.scans_append (p := .start) hbrace.slashless
    (c := '\n') (by decide) (scans_from _ (CodePoint.ofChar '\n' :: unescape rest))
  have heq := hs.from_eq.symm.trans hb.from_eq
  obtain rfl := congrArg Scan.tokens heq
  obtain ⟨u, v, he, hu, hv⟩ := Nonterminal.exists_header hd
  rw [List.map_append, hbw, List.append_assoc, List.singleton_append] at he
  exact (hheader.unique hu he (by simp) hv).2.symm

end Spec

namespace Draft
variable {d d' : Draft} {style : Style} {context : Option Text} {g : GeneratedMethod}

theorem exists_build_eq (h : (d.build style context).2 = .ok g) :
    ∃ d', d.build style context = (d', .ok g) := ⟨_, Prod.ext rfl h⟩

/-- A draft from which a method is built has a specification, and the method is read from its text. -/
theorem exists_parse_of_build (h : d.build style context = (d', .ok g)) :
    ∃ target m, parse ((d.specFor target).assemble style) = .ok m ∧
      g = ⟨(d.specFor target).assemble style, { m with context := context }⟩ := by
  have hstep : d.step (.build style context) = (d', .built g) := by
    rw [step, h]
  rcases d.step_cases (.build style context) with ⟨e, he, -⟩ | ⟨c, hc, -⟩ | ⟨target, -, -, -, he⟩
  · rw [he] at hstep
    cases hstep
  · cases hc
  · rw [he, Step.taken, Spec.build, parseFor] at hstep
    cases hm : parse ((d.specFor target).assemble style) with
    | error e =>
      rw [hm] at hstep
      cases hstep
    | ok m =>
      rw [hm] at hstep
      cases hstep
      exact ⟨target, m, hm, rfl⟩

theorem isStatic_keywords (isStatic : Bool) (m : MethodDeclaration)
    (h : m.modifiers = (keywords isStatic).map .keyword) : m.isStatic = isStatic := by
  rw [MethodDeclaration.isStatic, MethodDeclaration.keywords, h]
  cases isStatic <;> decide

theorem names_of_declares {ps : List Parameter} {fs : List FormalParameter}
    (h : List.Forall₂ Declares ps fs) : fs.map (·.name) = ps.map (·.name) := by
  induction h with
  | nil => rfl
  | cons hd _ ih => rw [List.map_cons, List.map_cons, hd.name_eq, ih]

/-- A method that is built has the name, the parameters and the result that were configured. -/
theorem build_describes {r : ResultType} {fs : List FormalParameter}
    (h : IsDeclared d.name d.returnType d.parameters r fs)
    (hb : d.build style context = (d', .ok g)) :
    g.method.name = d.name ∧ g.method.isStatic = d.isStatic ∧
      g.method.parameters.map (·.name) = d.parameters.map (·.name) ∧
      g.method.parameters = fs ∧ g.method.result = r := by
  obtain ⟨target, m, hm, rfl⟩ := exists_parse_of_build hb
  have hdeclared : IsDeclared (d.specFor target).name (d.specFor target).returnType
      (d.specFor target).parameters r fs := h
  have hheader := Spec.header_of_parse hdeclared hm
  have hmodifiers := congrArg MethodDeclaration.modifiers hheader
  have hparameters : m.parameters = fs := congrArg MethodDeclaration.parameters hheader
  refine ⟨congrArg MethodDeclaration.name hheader, isStatic_keywords _ _ hmodifiers, ?_,
    hparameters, congrArg MethodDeclaration.result hheader⟩
  show m.parameters.map (·.name) = _
  rw [hparameters, names_of_declares h.declares]

theorem build_describes_reader :
    let d : Draft := { Draft.new "f" with
      parameters := [.ofBinary "C" "c"], target := some (.field .get "C" "x") }
    let formal : FormalParameter := ⟨[], .reference (.mk "C" []) 0, false, "c"⟩
    ∃ d' g, IsDeclared d.name d.returnType d.parameters .void [formal] ∧
      d.build {} none = (d', .ok g) ∧ g.method.name = d.name ∧ g.method.parameters = [formal] := by
  intro d formal
  have hdeclared : IsDeclared d.name d.returnType d.parameters .void [formal] := by
    have hc : type.Derives [nameLexeme "C"] (.reference (.mk "C" []) 0) :=
      .intro (.tail _ (.head _)) (.node (u := [nameLexeme "C"])
        (.intro (.head _) (.node (u := [nameLexeme "C"])
          (.intro (.head _) (.take (.last (derives_opt_none.mpr rfl) rfl))) (.last .nil rfl)))
        (.last (derives_dimensions_zero.mpr rfl) rfl))
    refine ⟨by decide +kernel, ⟨[keywordLexeme .void], ⟨by decide, by decide, by decide +kernel,
      by decide +kernel⟩, .intro (.tail _ (.head _)) (.skip (.nil _))⟩, .cons ?_ .nil⟩
    exact ⟨by decide +kernel, rfl, rfl, [nameLexeme "C"], [], ⟨by decide, by decide,
      by decide +kernel, by decide +kernel⟩, hc, derives_flag.mpr (.inr ⟨rfl, rfl⟩)⟩
  obtain ⟨g, hg⟩ : ∃ g, (d.build {} none).2 = .ok g := by
    have hsome : (d.build {} none).2.toOption.isSome := by decide +kernel
    exact exists_ok_of_isSome hsome
  obtain ⟨d', hb⟩ := exists_build_eq hg
  have h := build_describes hdeclared hb
  exact ⟨d', g, hdeclared, hb, h.1, h.2.2.2.1⟩

/-- A name with a comma in it stands for two parameters. -/
theorem build_describes_ne :
    let d : Draft := { Draft.new "f" with
      parameters := [.ofBinary "C" "c", .ofBinary "int" "a, int b"]
      target := some (.field .get "C" "x") }
    ∃ d' g, d.build {} none = (d', .ok g) ∧
      g.method.parameters.map (·.name) ≠ d.parameters.map (·.name) := by
  intro d
  have hlength : (d.build {} none).2.toOption.map (·.method.parameters.length) = some 3 := by
    decide +kernel
  obtain ⟨g, hg⟩ : ∃ g, (d.build {} none).2 = .ok g := by
    refine exists_ok_of_isSome ?_
    cases h : (d.build {} none).2.toOption with
    | none =>
      rw [h] at hlength
      cases hlength
    | some g => rfl
  obtain ⟨d', hb⟩ := exists_build_eq hg
  refine ⟨d', g, hb, fun he => ?_⟩
  rw [hg] at hlength
  have hthree : g.method.parameters.length = 3 := Option.some.inj hlength
  have := congrArg List.length he
  rw [List.length_map, List.length_map, hthree] at this
  cases this

end Draft

end MemberAccess.Accessor
