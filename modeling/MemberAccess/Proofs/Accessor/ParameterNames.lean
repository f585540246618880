import Mathlib.Data.List.Nodup
import Mathlib.Data.List.Perm.Basic
import MemberAccess.Proofs.Accessor.LifeCycle
import MemberAccess.Proofs.Text.Digits

/-!
# Names of the parameters of a draft

A parameter that is added without a name is numbered by its place among those that are added with
it. Two parameters can get one name in this way, even if no name is given twice.
-/

namespace MemberAccess.Accessor

/-- The name that is known of a parameter. -/
def MemberParameter.ownName? (p : MemberParameter) : Option Text := Parameter.known? p.name

/-- The name of a parameter of which none is known. -/
def Parameter.numberedName (index : Nat) : Text := Text.ofString "arg" ++ Text.ofNat index

theorem Parameter.numberedName_injective : Function.Injective numberedName := fun _ _ h =>
  Text.ofNat_injective (List.append_cancel_left h)

theorem Parameter.numberedName_ne_nil (index : Nat) : numberedName index ≠ [] := fun h => by
  cases (List.append_eq_nil_iff.mp h).1

theorem Parameter.ofMember_name (index : Nat) (p : MemberParameter) :
    (ofMember index p).name = p.ownName?.getD (numberedName index) := rfl

theorem Parameter.ne_nil_of_known? {t : Option Text} {name : Text} (h : known? t = some name) :
    name ≠ [] := by
  rintro rfl
  exact Bool.noConfusion (Option.filter_eq_some_iff.mp h).2

namespace Draft

variable {n : Text} {steps : List Step} {sp : Spec}

namespace Change

/-- The names that are given, apart from missing and empty ones. -/
def givenNames : Change → List Text
  | addParameter _ name => (Parameter.known? (some name)).toList
  | addParameters parameters => parameters.filterMap (·.ownName?)
  | _ => []

/-- The places of those that are added without a name among those that are added together. -/
def namelessPlaces : Change → List Nat
  | addParameters parameters =>
    (parameters.zipIdx.filter (·.1.ownName?.isNone)).map Prod.snd
  | _ => []

/-- The empty name is taken as it is for a parameter that is added alone. -/
def emptyNames : Change → List Text
  | addParameter _ name => [name].filter (·.isEmpty)
  | _ => []

theorem ne_nil_of_mem_givenNames {c : Change} {name : Text} (h : name ∈ c.givenNames) :
    name ≠ [] := by
  cases c with
  | addParameter binaryType other => exact Parameter.ne_nil_of_known? (Option.mem_toList.mp h)
  | addParameters parameters =>
    obtain ⟨p, -, hp⟩ := List.mem_filterMap.mp h
    exact Parameter.ne_nil_of_known? hp
  | setName | setStatic | setReturnType | setTarget => cases h

theorem eq_nil_of_mem_emptyNames {c : Change} {name : Text} (h : name ∈ c.emptyNames) :
    name = [] := by
  cases c with
  | addParameter binaryType other => exact List.isEmpty_iff.mp (List.mem_filter.mp h).2
  | addParameters | setName | setStatic | setReturnType | setTarget => cases h

/-- Each of the parameters that are added together has its own name or a number. -/
theorem perm_names_ofMember (parameters : List (MemberParameter × Nat)) :
    (parameters.map fun p => (Parameter.ofMember p.2 p.1).name).Perm
      ((parameters.map Prod.fst).filterMap (·.ownName?) ++
        ((parameters.filter (·.1.ownName?.isNone)).map Prod.snd).map Parameter.numberedName) := by
  induction parameters with
  | nil => exact .refl _
  | cons p parameters ih =>
    rw [List.map_cons, List.map_cons, Parameter.ofMember_name]
    cases h : p.1.ownName? with
    | none =>
      rw [List.filterMap_cons_none h, List.filter_cons_of_pos (by rw [h]; rfl)]
      exact (ih.cons _).trans List.perm_middle.symm
    | some name =>
      rw [List.filterMap_cons_some h, List.filter_cons_of_neg (by rw [h]; exact Bool.noConfusion)]
      exact ih.cons _

theorem perm_names (c : Change) : (c.parameters.map (·.name)).Perm
    (c.givenNames ++ (c.namelessPlaces.map Parameter.numberedName ++ c.emptyNames)) := by
  cases c with
  | addParameter binaryType name => cases name <;> exact .refl _
  | addParameters parameters =>
    have h := perm_names_ofMember parameters.zipIdx
    rw [List.zipIdx_map_fst] at h
    show ((parameters.mapIdx Parameter.ofMember).map _).Perm (_ ++ (_ ++ []))
    rw [List.mapIdx_eq_zipIdx_map, List.map_map, List.append_nil]
    exact h
  | setName | setStatic | setReturnType | setTarget => exact .refl _

end Change

theorem parameters_eq_of_freeze (h : ((new n).run steps).1.freeze.2 = .ok sp) :
    sp.parameters = (steps.filterMap Step.change?).flatMap (·.parameters) := by
  have hspec : ((new n).run steps).1.spec = .ok sp := by
    rw [freeze] at h
    cases hs : ((new n).run steps).1.spec with
    | error e =>
      rw [hs] at h
      cases h
    | ok other =>
      rw [hs] at h
      exact h
  have hopen : ¬ Takes n steps := by
    intro ht
    rw [spec_of_isConsumed (isConsumed_run_iff.mpr ht)] at hspec
    cases hspec
  rw [run_new hopen] at hspec
  obtain ⟨target, ht⟩ := exists_isReady_of_spec hspec
  rw [spec_of_isReady rfl ht] at hspec
  cases hspec
  rfl

theorem perm_names_flatMap (changes : List Change) :
    ((changes.flatMap (·.parameters)).map (·.name)).Perm
      (changes.flatMap (·.givenNames) ++
        ((changes.flatMap (·.namelessPlaces)).map Parameter.numberedName ++
          changes.flatMap (·.emptyNames))) := by
  rw [List.map_flatMap, List.map_flatMap]
  refine (List.Perm.flatMap_left changes fun c _ => c.perm_names).trans ?_
  refine (List.flatMap_append_perm changes _ _).symm.trans (List.Perm.append_left _ ?_)
  exact (List.flatMap_append_perm changes _ _).symm

/-- If no name is given twice, two parameters have one name only if two are without a name at the
same place of what was added, if a name of this form was given, or if the empty name was given twice
to a parameter that was added alone. -/
theorem parameterNames_nodup_iff (h : ((new n).run steps).1.freeze.2 = .ok sp)
    (hgiven : ((steps.filterMap Step.change?).flatMap (·.givenNames)).Nodup) :
    (sp.parameters.map (·.name)).Nodup ↔
      ((steps.filterMap Step.change?).flatMap (·.namelessPlaces)).Nodup ∧
      (∀ i ∈ (steps.filterMap Step.change?).flatMap (·.namelessPlaces),
        Parameter.numberedName i ∉ (steps.filterMap Step.change?).flatMap (·.givenNames)) ∧
      ((steps.filterMap Step.change?).flatMap (·.emptyNames)).length ≤ 1 := by
  rw [parameters_eq_of_freeze h]
  -- Names of the three kinds are distinct by what they are, except for given and numbered ones.
  generalize steps.filterMap Step.change? = changes at hgiven ⊢
  have hne : ∀ name ∈ changes.flatMap (·.givenNames), name ≠ [] := fun name hm => by
    obtain ⟨c, -, hc⟩ := List.mem_flatMap.mp hm
    exact c.ne_nil_of_mem_givenNames hc
  have hnil : ∀ name ∈ changes.flatMap (·.emptyNames), name = [] := fun name hm => by
    obtain ⟨c, -, hc⟩ := List.mem_flatMap.mp hm
    exact c.eq_nil_of_mem_emptyNames hc
  have hempty : (changes.flatMap (·.emptyNames)).Nodup ↔
      (changes.flatMap (·.emptyNames)).length ≤ 1 := by
    conv_lhs => rw [List.eq_replicate_of_mem hnil]
    exact List.nodup_replicate
  rw [(perm_names_flatMap changes).nodup_iff, List.nodup_append', List.nodup_append',
    List.nodup_map_iff Parameter.numberedName_injective, hempty]
  constructor
  · rintro ⟨-, ⟨hplaces, hone, -⟩, hdisjoint⟩
    exact ⟨hplaces, fun i hi hm => hdisjoint hm
      (List.mem_append_left _ (List.mem_map_of_mem hi)), hone⟩
  · rintro ⟨hplaces, hnumbered, hone⟩
    refine ⟨hgiven, ⟨hplaces, hone, ?_⟩, ?_⟩
    · intro name hm hm'
      obtain ⟨i, -, rfl⟩ := List.mem_map.mp hm
      exact Parameter.numberedName_ne_nil i (hnil _ hm')
    · intro name hm hm'
      rcases List.mem_append.mp hm' with hm' | hm'
      · obtain ⟨i, hi, rfl⟩ := List.mem_map.mp hm'
        exact hnumbered i hi hm
      · exact hne name hm (hnil name hm')

theorem parameterNames_nodup_mixed :
    let steps : List Step := [.configure (.addParameter "int" "x"),
      .configure (.addParameters [⟨"int", none, none⟩, ⟨"long", some "y", none⟩]),
      .configure (.setTarget (.constructor "C")),
      .configure (.addParameters [⟨"int", some "z", none⟩, ⟨"int", some "", none⟩])]
    ∃ sp, ((new "f").run steps).1.freeze.2 = .ok sp ∧
      ((steps.filterMap Step.change?).flatMap (·.givenNames)).Nodup ∧
      sp.parameters.map (·.name) = ["x", "arg0", "y", "z", "arg1"] ∧
      (sp.parameters.map (·.name)).Nodup := by
  intro steps
  have hgiven : ((steps.filterMap Step.change?).flatMap (·.givenNames)).Nodup := by decide
  obtain ⟨sp, h⟩ : ∃ sp, ((new "f").run steps).1.freeze.2 = .ok sp := ⟨_, rfl⟩
  have hnames := parameters_eq_of_freeze h
  exact ⟨sp, h, hgiven, by rw [hnames]; decide,
    (parameterNames_nodup_iff h hgiven).mpr (by decide)⟩

/-- Two members whose parameters have no names give the same name twice. -/
theorem exists_parameterName_twice :
    let steps : List Step := [.configure (.addParameters [⟨"int", none, none⟩]),
      .configure (.addParameters [⟨"int", none, none⟩]),
      .configure (.setTarget (.constructor "C"))]
    ∃ sp, ((new "f").run steps).1.freeze.2 = .ok sp ∧
      ((steps.filterMap Step.change?).flatMap (·.givenNames)).Nodup ∧
      sp.parameters.map (·.name) = ["arg0", "arg0"] ∧
      ¬ (sp.parameters.map (·.name)).Nodup :=
  ⟨_, rfl, by decide, by decide, by decide⟩

end Draft

end MemberAccess.Accessor
