import Mathlib.Data.List.Nodup
import Mathlib.Data.List.Perm.Basic
import MemberAccess.Proofs.Accessor.LifeCycle
import MemberAccess.Proofs.CommandLine.Arguments

/-!
# Accessors from the command line

An accessor that is asked for on the command line is the one that is configured step by step, and the
options can stand in any order, as long as the parameters keep theirs.
-/

namespace MemberAccess

namespace Accessor.Target

def task : Target → CommandLine.Task
  | field .get .. => .field
  | field .set .. => .setField
  | method .. => .method
  | constructor _ => .constructor

def memberName? : Target → Option Text
  | field _ _ name | method _ name => some name
  | constructor _ => none

theorem target?_task (target : Target) :
    target.task.target? target.className (target.memberName?.getD []) = some target := by
  cases target with
  | field access className name => cases access <;> rfl
  | method | constructor => rfl

end Accessor.Target

namespace CommandLine

open Accessor

namespace Choice

/-- The option with the value, if there is one. -/
def valued (o : OptionSpec) (name : Text) (value : Option Text) : List Choice :=
  value.toList.map fun v => ⟨o, name, some v⟩

/-- The option without a value, if it is wanted. -/
def flag (o : OptionSpec) (name : Text) (isWanted : Bool) : List Choice :=
  if isWanted then [⟨o, name, none⟩] else []

def values (choices : List Choice) (key : Text) : List Text :=
  (choices.filter (·.option.key = key)).map (·.value.getD [])

variable {choices choices' : List Choice} {key : Text}

theorem values_append :
    values (choices ++ choices') key = values choices key ++ values choices' key := by
  rw [values, List.filter_append, List.map_append]
  rfl

theorem values_valued (o : OptionSpec) (name : Text) (value : Option Text) :
    values (valued o name value) key = if o.key = key then value.toList else [] := by
  cases value with
  | none => split <;> rfl
  | some v => by_cases h : o.key = key <;> simp [values, valued, h]

theorem values_flag (o : OptionSpec) (name : Text) (isWanted : Bool) :
    values (flag o name isWanted) key = if o.key = key ∧ isWanted then [[]] else [] := by
  cases isWanted with
  | false => simp [values, flag]
  | true => by_cases h : o.key = key <;> simp [values, flag, h]

theorem forall_valued {P : Choice → Prop} {o : OptionSpec} {name : Text} {value : Option Text}
    (h : ∀ v ∈ value, P ⟨o, name, some v⟩) : ∀ c ∈ valued o name value, P c := by
  intro c hc
  obtain ⟨v, hv, rfl⟩ := List.mem_map.mp hc
  exact h v (Option.mem_toList.mp hv)

theorem forall_flag {P : Choice → Prop} {o : OptionSpec} {name : Text} {isWanted : Bool}
    (h : P ⟨o, name, none⟩) : ∀ c ∈ flag o name isWanted, P c := by
  cases isWanted with
  | false => exact List.forall_mem_nil _
  | true => exact List.forall_mem_singleton.mpr h

theorem keys_valued (o : OptionSpec) (name : Text) (value : Option Text) :
    ((valued o name value).map (·.option.key)).Sublist [o.key] := by
  cases value with
  | none => exact List.nil_sublist _
  | some v => exact List.Sublist.refl _

theorem keys_flag (o : OptionSpec) (name : Text) (isWanted : Bool) :
    ((flag o name isWanted).map (·.option.key)).Sublist [o.key] := by
  cases isWanted with
  | false => exact List.nil_sublist _
  | true => exact List.Sublist.refl _

theorem length_values (choices : List Choice) (key : Text) :
    (values choices key).length = (choices.map (·.option.key)).count key := by
  rw [values, List.length_map, ← List.countP_eq_length_filter, List.count, List.countP_map]
  apply List.countP_congr
  intro c _
  simp

end Choice

/-- An accessor as it is asked for on the command line. -/
structure Request where
  target : Target
  name : Text
  returnType : Option Text
  isStatic : Bool
  /-- Types and names. -/
  parameters : List (Text × Text)
  context : Option Text
  showsTree : Bool

namespace Request

/-- The options other than parameters. -/
def others (r : Request) : List Choice :=
  Choice.valued ownerOption "--owner" (some r.target.className) ++
  Choice.valued memberOption "--member" r.target.memberName? ++
  Choice.valued nameOption "--name" (some r.name) ++
  Choice.valued returnTypeOption "--return-type" r.returnType ++
  Choice.flag staticOption "--static" r.isStatic ++
  Choice.valued contextOption "--context" r.context ++
  Choice.flag astOption "--ast" r.showsTree

/-- The values for the parameters, each a type and a name with a colon between. -/
def parameterTexts (r : Request) : List Text := r.parameters.map fun p => p.1 ++ ":" ++ p.2

def parameterChoices (r : Request) : List Choice :=
  r.parameterTexts.map fun t => ⟨parameterOption, "-p", some t⟩

def choices (r : Request) : List Choice := r.others ++ r.parameterChoices

/-- The choices ask for the accessor, in any order in which the parameters keep theirs. -/
structure IsGivenBy (r : Request) (choices : List Choice) : Prop where
  perm : choices.Perm r.choices
  parameters_eq : choices.filter (·.option.key = parameterOption.key) = r.parameterChoices

/-- No value is taken for an option, and types and names of parameters can be told apart. -/
structure IsPlain (r : Request) : Prop where
  isValue : ∀ c ∈ r.choices, ∀ v ∈ c.value, IsValue v
  isParameter : ∀ p ∈ r.parameters, p.1 ≠ [] ∧ p.2 ≠ [] ∧ CodePoint.ofChar ':' ∉ p.2

def changes (r : Request) : List Draft.Change :=
  [.setStatic r.isStatic, .setReturnType (r.returnType.getD "void")] ++
  r.parameters.map (fun p => .addParameter p.1 p.2) ++ [.setTarget r.target]

def draft (r : Request) : Draft := ((Draft.new r.name).run (r.changes.map .configure)).1

variable {r : Request} {choices : List Choice} {c : Choice} {key : Text}

theorem nodup_keys_others (r : Request) : (r.others.map (·.option.key)).Nodup := by
  have hkeys : (r.others.map (·.option.key)).Sublist
      ([ownerOption.key] ++ [memberOption.key] ++ [nameOption.key] ++ [returnTypeOption.key] ++
        [staticOption.key] ++ [contextOption.key] ++ [astOption.key]) := by
    simp only [others, List.map_append]
    repeat' apply List.Sublist.append
    all_goals first | apply Choice.keys_valued | apply Choice.keys_flag
  exact hkeys.nodup (by decide)

theorem values_others_parameter (r : Request) : Choice.values r.others parameterOption.key = [] := by
  simp +decide [others, Choice.values_append, Choice.values_valued, Choice.values_flag]

theorem map_value_parameterChoices (r : Request) :
    r.parameterChoices.map (·.value.getD []) = r.parameterTexts := by
  rw [parameterChoices, List.map_map]
  exact List.map_id _

theorem values_parameterChoices (r : Request) :
    Choice.values r.parameterChoices key =
      if parameterOption.key = key then r.parameterTexts else [] := by
  have hkey : ∀ c ∈ r.parameterChoices, c.option.key = parameterOption.key := by
    intro c hc
    obtain ⟨t, -, rfl⟩ := List.mem_map.mp hc
    rfl
  rw [Choice.values]
  split
  · rename_i h
    rw [List.filter_eq_self.mpr fun c hc => decide_eq_true ((hkey c hc).trans h),
      map_value_parameterChoices]
  · rename_i h
    rw [List.filter_eq_nil_iff.mpr fun c hc => by simpa [hkey c hc] using h, List.map_nil]

/-- A list of at most one element has one order. -/
theorem eq_of_perm_of_length_le {l l' : List Text} (h : l.Perm l') (hlength : l'.length ≤ 1) :
    l = l' := by
  match l' with
  | [] => exact h.eq_nil
  | [_] => exact List.perm_singleton.mp h
  | _ :: _ :: _ => simp at hlength

/-- The order of the options does not matter for the values of any of them. -/
theorem IsGivenBy.values_eq (h : r.IsGivenBy choices) (key : Text) :
    Choice.values choices key = Choice.values r.choices key := by
  by_cases hkey : parameterOption.key = key
  · subst hkey
    rw [Choice.values, h.parameters_eq, Request.choices, Choice.values_append,
      values_others_parameter, values_parameterChoices, if_pos rfl, List.nil_append,
      map_value_parameterChoices]
  · -- Any other option is there once at most, so that its values have one order.
    apply eq_of_perm_of_length_le ((h.perm.filter _).map _)
    show (Choice.values r.choices key).length ≤ 1
    rw [Request.choices, Choice.values_append, values_parameterChoices, if_neg hkey,
      List.append_nil, Choice.length_values]
    exact List.nodup_iff_count_le_one.mp r.nodup_keys_others key

theorem parameter?_append {type name : Text} (htype : type ≠ []) (hname : name ≠ [])
    (hcolon : CodePoint.ofChar ':' ∉ name) :
    parameter? (type ++ ":" ++ name) = some (type, name) := by
  have hreverse : (type ++ ":" ++ name).reverse =
      name.reverse ++ CodePoint.ofChar ':' :: type.reverse := by
    simp [Text.ofString]
  have hkept : ∀ c ∈ name.reverse, (!(c == CodePoint.ofChar ':')) = true := by
    intro c hc
    rw [List.mem_reverse] at hc
    simpa using ne_of_mem_of_not_mem hc hcolon
  have hsplit : splitAtLastColon (type ++ ":" ++ name) = some (type, name) := by
    simp only [splitAtLastColon, hreverse, List.dropWhile_append_of_pos hkept,
      List.takeWhile_append_of_pos hkept]
    simp
  rw [parameter?, hsplit]
  simp [htype, hname]

theorem filterMap_parameterTexts (h : r.IsPlain) :
    r.parameterTexts.filterMap parameter? = r.parameters := by
  rw [parameterTexts, List.filterMap_map]
  conv_rhs => rw [← List.filterMap_some (l := r.parameters)]
  apply List.filterMap_congr
  intro p hp
  obtain ⟨htype, hname, hcolon⟩ := h.isParameter p hp
  exact parameter?_append htype hname hcolon

/-- The options that the commands for all kinds of access have. -/
theorem mem_options (target : Target) : ∀ o ∈ [ownerOption, nameOption, returnTypeOption,
    staticOption, parameterOption, contextOption, astOption], o ∈ target.task.options := by
  cases target with
  | field access className name => cases access <;> simp [Target.task, Task.options]
  | method | constructor => simp [Target.task, Task.options]

/-- The command for the access has the option, and nothing is wrong with it but that its value may
be taken for an option. -/
structure Fits (r : Request) (c : Choice) : Prop where
  mem_options : c.option ∈ r.target.task.options
  mem_names : c.name ∈ c.option.names
  takesValue_eq : c.option.takesValue = c.value.isSome
  key_ne : c.option.key ≠ helpKey
  objection_eq : c.option.objection (c.value.getD []) = none

theorem fits_member (r : Request) : ∀ v ∈ r.target.memberName?,
    r.Fits ⟨memberOption, "--member", some v⟩ := by
  intro v hv
  refine ⟨?_, List.mem_singleton.mpr rfl, rfl, by simp +decide, rfl⟩
  cases htarget : r.target with
  | field access className name => cases access <;> simp [Target.task, Task.options]
  | method className name => simp [Target.task, Task.options]
  | constructor className =>
    rw [htarget] at hv
    cases hv

theorem fits_parameter (h : r.IsPlain) : ∀ c ∈ r.parameterChoices, r.Fits c := by
  intro c hc
  obtain ⟨t, ht, rfl⟩ := List.mem_map.mp hc
  obtain ⟨p, hp, rfl⟩ := List.mem_map.mp ht
  obtain ⟨htype, hname, hcolon⟩ := h.isParameter p hp
  refine ⟨mem_options r.target _ (by simp), List.mem_cons_self, rfl, by simp +decide, ?_⟩
  show objectionToParameter (p.1 ++ ":" ++ p.2) = none
  rw [objectionToParameter, parameter?_append htype hname hcolon]
  rfl

theorem fits_of_mem (h : r.IsPlain) : ∀ c ∈ r.choices, r.Fits c := by
  have hmem := mem_options r.target
  simp only [Request.choices, others, List.forall_mem_append]
  refine ⟨⟨⟨⟨⟨⟨⟨?owner, Choice.forall_valued r.fits_member⟩, ?name⟩, ?returnType⟩, ?static⟩,
    ?context⟩, ?ast⟩, fits_parameter h⟩
  case owner | name | returnType | context =>
    apply Choice.forall_valued
    intro v _
    exact ⟨hmem _ (by simp), List.mem_singleton.mpr rfl, rfl, by simp +decide, rfl⟩
  case static | ast =>
    apply Choice.forall_flag
    exact ⟨hmem _ (by simp), List.mem_singleton.mpr rfl, rfl, by simp +decide, rfl⟩

theorem isAccepted (hr : r.IsPlain) (h : r.IsGivenBy choices) :
    ∀ c ∈ choices, c.IsAccepted r.target.task.options := by
  intro c hc
  have hmem := h.perm.subset hc
  have hfits := fits_of_mem hr c hmem
  exact ⟨r.target.task.isRead_name hfits.mem_options hfits.mem_names, hfits.takesValue_eq,
    hr.isValue c hmem, hfits.key_ne, hfits.objection_eq⟩

/-- The program passes on all arguments. -/
theorem exists_isRead (hr : r.IsPlain) (h : r.IsGivenBy choices) :
    ∀ t ∈ choices.flatMap (·.texts),
      ∃ reading, Argument.IsRead mainCommand.options ⟨t, reading⟩ := by
  intro t ht
  obtain ⟨c, hc, ht⟩ := List.mem_flatMap.mp ht
  have hmem := h.perm.subset hc
  have hfits := fits_of_mem hr c hmem
  rcases List.mem_cons.mp ht with rfl | hv
  · exact r.target.task.exists_isRead_name hfits.mem_options hfits.mem_names
  · exact ⟨.plain, (hr.isValue c hmem t (Option.mem_toList.mp hv)).isRead⟩

theorem key_of_isRequired (task : Task) : ∀ o ∈ task.options, o.isRequired = true →
    o.key = ownerOption.key ∨ o.key = nameOption.key ∨
      o.key = memberOption.key ∧ task ≠ .constructor := by
  cases task <;> decide

theorem exists_memberName {target : Target} (h : target.task ≠ .constructor) :
    ∃ name, target.memberName? = some name := by
  cases target with
  | field access className name => exact ⟨name, rfl⟩
  | method className name => exact ⟨name, rfl⟩
  | constructor className => exact absurd rfl h

theorem exists_required (h : r.IsGivenBy choices) : ∀ o ∈ r.target.task.options,
    o.isRequired = true → ∃ c ∈ choices, c.option.key = o.key := by
  intro o ho hreq
  have hchosen {c : Choice} (hc : c ∈ r.others) (hkey : o.key = c.option.key) :
      ∃ c ∈ choices, c.option.key = o.key :=
    ⟨c, h.perm.symm.subset (List.mem_append_left _ hc), hkey.symm⟩
  rcases key_of_isRequired r.target.task o ho hreq with hkey | hkey | ⟨hkey, htask⟩
  · exact hchosen (c := ⟨ownerOption, "--owner", some r.target.className⟩)
      (by simp [others, Choice.valued]) hkey
  · exact hchosen (c := ⟨nameOption, "--name", some r.name⟩) (by simp [others, Choice.valued]) hkey
  · obtain ⟨name, hname⟩ := exists_memberName htask
    exact hchosen (c := ⟨memberOption, "--member", some name⟩)
      (by simp [others, Choice.valued, hname]) hkey

theorem take_eq (hr : r.IsPlain) (h : r.IsGivenBy choices) :
    r.target.task.command.take (choices.flatMap (·.texts)) =
      .ok { settings := choices.map (·.setting) } := by
  have hoperands : r.target.task.command.operands = .none := by
    cases r.target with
    | field access => cases access <;> rfl
    | method | constructor => rfl
  exact Command.take_choices hoperands (isAccepted hr h) (exists_required h)

theorem run_eq (files : Files) (hr : r.IsPlain) (h : r.IsGivenBy choices) :
    run files (r.target.task.name :: choices.flatMap (·.texts)) =
      r.target.task.run files false { settings := choices.map (·.setting) } := by
  rw [run_name files r.target.task (exists_isRead hr h), runTask, take_eq hr h]
  rfl

theorem values_settings (h : r.IsGivenBy choices) (key : Text) :
    Taken.values { settings := choices.map (·.setting) } key = Choice.values r.choices key := by
  rw [← h.values_eq, Taken.values, List.filter_map, List.map_map]
  rfl

/-- What has been taken from the arguments is the request. -/
structure IsTaken (r : Request) (t : Taken) : Prop where
  owner : t.value? "--owner" = some r.target.className
  member : t.value? "--member" = r.target.memberName?
  name : t.value? "--name" = some r.name
  returnType : t.value? "--return-type" = r.returnType
  isStatic : t.has "--static" = r.isStatic
  parameters : t.values "--param" = r.parameterTexts
  context : t.value? "--context" = r.context
  showsTree : t.has "--ast" = r.showsTree

theorem isTaken (h : r.IsGivenBy choices) : r.IsTaken { settings := choices.map (·.setting) } := by
  have hlast (v : Option Text) : v.toList.getLast? = v := by cases v <;> rfl
  have hwanted (b : Bool) : (if b = true then [([] : Text)] else []).isEmpty = !b := by
    cases b <;> rfl
  constructor <;>
    simp +decide [Taken.value?_eq, Taken.has_eq, values_settings h, Request.choices, others,
      Choice.values_append, Choice.values_valued, Choice.values_flag, values_parameterChoices,
      hlast, hwanted]

variable {t : Taken}

theorem IsTaken.changesOf_eq (ht : r.IsTaken t) (hr : r.IsPlain) :
    changesOf t (some r.target) = r.changes := by
  rw [changesOf, ht.isStatic, ht.returnType, ht.parameters, filterMap_parameterTexts hr]
  rfl

theorem IsTaken.draftOf_eq (ht : r.IsTaken t) (hr : r.IsPlain) :
    draftOf t (some r.target) = r.draft := by
  rw [draftOf, ht.changesOf_eq hr, ht.name, draft, Draft.run_configure rfl]
  rfl

theorem generate_eq (t : Taken) (d : Draft) :
    generate false t d =
      match (d.build {} (contextOf t)).2 with
      | .ok m => ⟨0, if t.has "--ast" then m.method.toJson.render 2 ++ "\n" else m.text, []⟩
      | .error e => ⟨1, [], "Error: " ++ e.message ++ "\n"⟩ := by
  rw [generate]
  cases (d.build {} (contextOf t)).2 with
  | ok m => cases d.spec <;> rfl
  | error e => cases d.spec <;> rfl

theorem IsTaken.run_eq (ht : r.IsTaken t) (hr : r.IsPlain) (files : Files) :
    r.target.task.run files false t =
      match (r.draft.build {} (r.context.filter (!·.isEmpty))).2 with
      | .ok m => ⟨0, if r.showsTree then m.method.toJson.render 2 ++ "\n" else m.text, []⟩
      | .error e => ⟨1, [], "Error: " ++ e.message ++ "\n"⟩ := by
  have htarget : r.target.task.target? ((t.value? "--owner").getD [])
      ((t.value? "--member").getD []) = some r.target := by
    rw [ht.owner, ht.member]
    exact r.target.target?_task
  have hcontext : contextOf t = r.context.filter (!·.isEmpty) := by
    rw [contextOf, ht.context]
    rfl
  have hgenerate := generate_eq t r.draft
  rw [hcontext, ht.showsTree] at hgenerate
  rw [← hgenerate, ← ht.draftOf_eq hr, ← htarget]
  cases r.target with
  | field access => cases access <;> rfl
  | method | constructor => rfl

/-- An accessor that is asked for on the command line is printed, or the error is reported, as it is
for the draft that is configured step by step. The order of the options does not matter, as long as
the parameters keep theirs. -/
theorem run_eq_build (files : Files) (r : Request) (choices : List Choice) (hr : r.IsPlain)
    (h : r.IsGivenBy choices) :
    (run files (r.target.task.name :: choices.flatMap (·.texts)) =
      match (r.draft.build {} (r.context.filter (!·.isEmpty))).2 with
      | .ok m => ⟨0, if r.showsTree then m.method.toJson.render 2 ++ "\n" else m.text, []⟩
      | .error e => ⟨1, [], "Error: " ++ e.message ++ "\n"⟩) ∧
    ∀ choices', r.IsGivenBy choices' →
      run files (r.target.task.name :: choices'.flatMap (·.texts)) =
        run files (r.target.task.name :: choices.flatMap (·.texts)) := by
  refine ⟨(run_eq files hr h).trans ((isTaken h).run_eq hr files), ?_⟩
  intro choices' h'
  rw [run_eq files hr h, run_eq files hr h', (isTaken h).run_eq hr, (isTaken h').run_eq hr]

theorem run_eq_build_reversed :
    let r : Request := ⟨.method "a.B" "m", "f", some "int", true, [("a.B", "x"), ("a:b", "y")],
      some "", false⟩
    let choices := r.parameterChoices ++ r.others.reverse
    let draft : Draft := ⟨"f", true, "int", [⟨"a.B", "x", "a.B"⟩, ⟨"a:b", "y", "a:b"⟩],
      some (.method "a.B" "m"), false⟩
    r.IsPlain ∧ r.IsGivenBy choices ∧
    run (fun _ => none) ["method", "-p", "a.B:x", "-p", "a:b:y", "--context", "", "--static",
        "--return-type", "int", "--name", "f", "--member", "m", "--owner", "a.B"] =
      match (draft.build {} none).2 with
      | .ok m => ⟨0, m.text, []⟩
      | .error e => ⟨1, [], "Error: " ++ e.message ++ "\n"⟩ := by
  intro r choices draft
  have hr : r.IsPlain := ⟨by decide, by decide⟩
  have h : r.IsGivenBy choices :=
    ⟨List.perm_append_comm.trans ((List.reverse_perm _).append_right _), rfl⟩
  have htexts : choices.flatMap (·.texts) = ["-p", "a.B:x", "-p", "a:b:y", "--context", "",
      "--static", "--return-type", "int", "--name", "f", "--member", "m", "--owner", "a.B"] := rfl
  have hdraft : r.draft = draft := by decide
  have hcontext : r.context.filter (!·.isEmpty) = none := rfl
  have hrun := (run_eq_build (fun _ => none) r choices hr h).1
  rw [htexts, hdraft, hcontext] at hrun
  refine ⟨hr, h, ?_⟩
  -- What the build gives is not needed, and takes long to compute.
  generalize (draft.build {} none).2 = result at hrun ⊢
  exact hrun

end Request

end CommandLine

end MemberAccess
