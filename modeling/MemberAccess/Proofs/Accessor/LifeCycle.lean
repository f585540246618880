import Mathlib.Data.List.Basic
import Mathlib.Data.List.Induction
import MemberAccess.Accessor.Draft

/-!
# The life of a draft

Until its specification is taken, a draft accepts every change and is what the changes amount to. The
specification can be taken once; after that every step is refused and nothing changes.
-/

namespace MemberAccess.Accessor.Draft

variable {d : Draft} {n : Text} {s : Step} {steps : List Step}

inductive Field where
  | name | isStatic | returnType | parameters | target
  deriving DecidableEq

namespace Change

def field : Change → Field
  | setName _ => .name
  | setStatic _ => .isStatic
  | setReturnType _ => .returnType
  | addParameter .. | addParameters _ => .parameters
  | setTarget _ => .target

def name? : Change → Option Text
  | setName name => some name
  | _ => none

def isStatic? : Change → Option Bool
  | setStatic isStatic => some isStatic
  | _ => none

def returnType? : Change → Option Text
  | setReturnType type => some type
  | _ => none

def parameters : Change → List Parameter
  | addParameter binaryType name => [.ofBinary binaryType name]
  | addParameters parameters => parameters.mapIdx .ofMember
  | _ => []

def target? : Change → Option Target
  | setTarget target => some target
  | _ => none

end Change

/-- A draft with the name `n` after the changes: of each field the last value that it was given, and
all parameters in the order in which they were added. -/
def ofChanges (n : Text) (changes : List Change) : Draft where
  name := (changes.filterMap (·.name?)).getLast?.getD n
  isStatic := (changes.filterMap (·.isStatic?)).getLast?.getD false
  returnType := (changes.filterMap (·.returnType?)).getLast?.getD "void"
  parameters := changes.flatMap (·.parameters)
  target := (changes.filterMap (·.target?)).getLast?
  isConsumed := false

theorem ofChanges_append (n : Text) (changes changes' : List Change) :
    ofChanges n (changes ++ changes') = changes'.foldl change (ofChanges n changes) := by
  induction changes' generalizing changes with
  | nil => rw [List.append_nil, List.foldl_nil]
  | cons c changes' ih =>
    have hc : ofChanges n (changes ++ [c]) = (ofChanges n changes).change c := by
      cases c <;>
        simp [ofChanges, change, Change.name?, Change.isStatic?, Change.returnType?,
          Change.parameters, Change.target?]
    rw [List.foldl_cons, ← hc, ← ih, List.append_assoc, List.singleton_append]

/-- What is collected from the changes of one field alone needs no other changes. -/
theorem flatMap_filter_field {A : Type} {f : Change → List A} {field : Field}
    (hf : ∀ c, c.field ≠ field → f c = []) (changes : List Change) :
    (changes.filter (·.field = field)).flatMap f = changes.flatMap f := by
  induction changes with
  | nil => rfl
  | cons c changes ih =>
    by_cases hc : c.field = field
    · rw [List.filter_cons_of_pos (by simpa using hc), List.flatMap_cons, List.flatMap_cons, ih]
    · rw [List.filter_cons_of_neg (by simpa using hc), List.flatMap_cons, hf c hc, ih,
        List.nil_append]

/-- Changes of different fields can be made in any order. -/
theorem ofChanges_congr {changes changes' : List Change}
    (h : ∀ field, changes.filter (·.field = field) = changes'.filter (·.field = field)) :
    ofChanges n changes = ofChanges n changes' := by
  have hlist {A : Type} {f : Change → List A} (field : Field)
      (hf : ∀ c, c.field ≠ field → f c = []) : changes.flatMap f = changes'.flatMap f := by
    rw [← flatMap_filter_field hf changes, h, flatMap_filter_field hf changes']
  have hoption {A : Type} {f : Change → Option A} (field : Field)
      (hf : ∀ c, c.field ≠ field → f c = none) : changes.filterMap f = changes'.filterMap f := by
    rw [List.filterMap_eq_flatMap_toList, List.filterMap_eq_flatMap_toList]
    exact hlist field fun c hc => by rw [hf c hc]; rfl
  have hname : changes.filterMap (·.name?) = changes'.filterMap (·.name?) :=
    hoption .name fun c hc => by cases c <;> first | rfl | exact absurd rfl hc
  have hstatic : changes.filterMap (·.isStatic?) = changes'.filterMap (·.isStatic?) :=
    hoption .isStatic fun c hc => by cases c <;> first | rfl | exact absurd rfl hc
  have hreturn : changes.filterMap (·.returnType?) = changes'.filterMap (·.returnType?) :=
    hoption .returnType fun c hc => by cases c <;> first | rfl | exact absurd rfl hc
  have hparameters : changes.flatMap (·.parameters) = changes'.flatMap (·.parameters) :=
    hlist .parameters fun c hc => by cases c <;> first | rfl | exact absurd rfl hc
  have htarget : changes.filterMap (·.target?) = changes'.filterMap (·.target?) :=
    hoption .target fun c hc => by cases c <;> first | rfl | exact absurd rfl hc
  rw [ofChanges, hname, hstatic, hreturn, hparameters, htarget, ofChanges]

/-- Lists of changes with the same changes of each field have one length. -/
theorem length_eq_of_filter_eq {changes changes' : List Change}
    (h : ∀ field, changes.filter (·.field = field) = changes'.filter (·.field = field)) :
    changes.length = changes'.length := by
  have hlength (changes : List Change) : changes.length =
      ([Field.name, .isStatic, .returnType, .parameters, .target].map fun field =>
        (changes.filter (·.field = field)).length).sum := by
    induction changes with
    | nil => rfl
    | cons c changes ih =>
      simp only [List.map_cons, List.map_nil, List.sum_cons, List.sum_nil] at ih ⊢
      cases hc : c.field <;> simp [hc, ih] <;> omega
  rw [hlength, hlength changes']
  simp only [h]

def Step.change? : Step → Option Change
  | configure c => some c
  | freeze | build .. => none

/-- What all changes among the steps amount to. -/
def ofSteps (n : Text) (steps : List Step) : Draft := ofChanges n (steps.filterMap Step.change?)

/-- All that is asked of a draft before its specification can be taken. -/
structure IsReady (d : Draft) (target : Target) : Prop where
  name_not_blank : Text.isBlank d.name = false
  target_eq : d.target = some target
  check_eq : target.check d.parameters = .ok ()

def specFor (d : Draft) (target : Target) : Spec :=
  ⟨d.name, d.isStatic, d.returnType, d.parameters, target⟩

theorem spec_of_isConsumed (h : d.isConsumed = true) : d.spec = .error (.alreadyBuilt d.name) := by
  simp [spec, checkOpen, h, bind, Except.bind]

theorem spec_of_isReady {target : Target} (h : d.isConsumed = false) (hd : d.IsReady target) :
    d.spec = .ok (d.specFor target) := by
  obtain ⟨hn, ht, hc⟩ := hd
  simp [spec, checkOpen, h, hn, ht, hc, bind, Except.bind, specFor, pure, Except.pure]

theorem exists_isReady_of_spec {sp : Spec} (h : d.spec = .ok sp) : ∃ target, d.IsReady target := by
  cases hd : d.isConsumed with
  | true =>
    rw [spec_of_isConsumed hd] at h
    cases h
  | false =>
    cases hn : Text.isBlank d.name with
    | true => simp [spec, checkOpen, hd, hn, bind, Except.bind, throw, throwThe, MonadExceptOf.throw] at h
    | false =>
      cases ht : d.target with
      | none =>
        simp [spec, checkOpen, hd, hn, ht, bind, Except.bind, throw, throwThe,
          MonadExceptOf.throw] at h
      | some target =>
        cases hc : target.check d.parameters with
        | error e => simp [spec, checkOpen, hd, hn, ht, hc, bind, Except.bind] at h
        | ok u => exact ⟨target, hn, ht, hc⟩

/-- Whether a step asks for the specification. -/
def Step.isTerminal : Step → Bool
  | configure _ => false
  | freeze | build .. => true

/-- What a step gives that has taken the specification. -/
def Step.taken (sp : Spec) : Step → Result
  | configure _ => .configured
  | freeze => .frozen sp
  | build style context =>
    match sp.build style context with
    | .ok m => .built m
    | .error e => .refused (.method e)

/-- Whether the specification was taken, though the text made from it may be no method. -/
def Result.passes : Result → Bool
  | frozen _ | built _ | refused (.method _) => true
  | configured | refused (.configuration _) => false

theorem passes_taken (sp : Spec) (hs : s.isTerminal = true) : (s.taken sp).passes = true := by
  cases s with
  | configure c => cases hs
  | freeze => rfl
  | build style context =>
    rw [Step.taken]
    split <;> rfl

theorem step_of_isConsumed (h : d.isConsumed = true) (s : Step) :
    d.step s = (d, .refused (.configuration (.alreadyBuilt d.name))) := by
  cases s with
  | configure c => simp [step, Draft.configure, checkOpen, h, bind, Except.bind]
  | freeze => simp [step, Draft.freeze, spec_of_isConsumed h]
  | build style context => simp [step, Draft.build, Draft.freeze, spec_of_isConsumed h]

theorem step_configure (h : d.isConsumed = false) (c : Change) :
    d.step (.configure c) = (d.change c, .configured) := by
  simp [step, Draft.configure, checkOpen, h, bind, Except.bind, pure, Except.pure]

theorem step_of_spec_eq_ok {sp : Spec} (hs : s.isTerminal = true) (h : d.spec = .ok sp) :
    d.step s = (d.consume, s.taken sp) := by
  cases s with
  | configure c => cases hs
  | freeze => simp [step, Draft.freeze, h, Step.taken]
  | build style context =>
    simp only [step, Draft.build, Draft.freeze, h, Step.taken]
    cases sp.build style context <;> rfl

theorem step_of_spec_eq_error {e : ConfigurationError} (hs : s.isTerminal = true)
    (h : d.spec = .error e) : d.step s = (d, .refused (.configuration e)) := by
  cases s with
  | configure c => cases hs
  | freeze => simp [step, Draft.freeze, h]
  | build style context => simp [step, Draft.build, Draft.freeze, h]

/-- All that a step can do. -/
theorem step_cases (d : Draft) (s : Step) :
    (∃ e, d.step s = (d, .refused (.configuration e)) ∧
      (d.isConsumed = true ∨ s.isTerminal = true ∧ ∀ target, ¬ d.IsReady target)) ∨
    (∃ c, s = .configure c ∧ d.isConsumed = false ∧ d.step s = (d.change c, .configured)) ∨
    (∃ target, s.isTerminal = true ∧ d.isConsumed = false ∧ d.IsReady target ∧
      d.step s = (d.consume, s.taken (d.specFor target))) := by
  cases hd : d.isConsumed with
  | true => exact .inl ⟨_, step_of_isConsumed hd s, .inl rfl⟩
  | false =>
    cases hs : s.isTerminal with
    | false =>
      cases s with
      | configure c => exact .inr (.inl ⟨c, rfl, rfl, step_configure hd c⟩)
      | freeze | build => cases hs
    | true =>
      cases h : d.spec with
      | error e =>
        refine .inl ⟨e, step_of_spec_eq_error hs h, .inr ⟨rfl, fun target hr => ?_⟩⟩
        rw [spec_of_isReady hd hr] at h
        cases h
      | ok sp =>
        obtain ⟨target, hr⟩ := exists_isReady_of_spec h
        have he := spec_of_isReady hd hr
        exact .inr (.inr ⟨target, rfl, rfl, hr, step_of_spec_eq_ok hs he⟩)

theorem ofSteps_configure (n : Text) (steps : List Step) (c : Change) :
    ofSteps n (steps ++ [Step.configure c]) = (ofSteps n steps).change c := by
  rw [ofSteps, List.filterMap_append]
  exact ofChanges_append n _ [c]

theorem ofSteps_of_isTerminal (n : Text) (steps : List Step) (hs : s.isTerminal = true) :
    ofSteps n (steps ++ [s]) = ofSteps n steps := by
  have hnone : s.change? = none := by
    cases s with
    | configure => cases hs
    | freeze | build => rfl
  rw [ofSteps, List.filterMap_append, List.filterMap_cons_none hnone, List.filterMap_nil,
    List.append_nil, ofSteps]

/-- Some step asks for the specification when the changes before it amount to a draft that is ready. -/
def Takes (n : Text) (steps : List Step) : Prop :=
  ∃ before s after target, steps = before ++ s :: after ∧ s.isTerminal = true ∧
    (ofSteps n before).IsReady target

theorem not_takes_nil : ¬ Takes n [] := by
  rintro ⟨before, s, after, -, he, -⟩
  cases before <;> cases he

theorem takes_append_iff : Takes n (steps ++ [s]) ↔
    Takes n steps ∨ s.isTerminal = true ∧ ∃ target, (ofSteps n steps).IsReady target := by
  constructor
  · rintro ⟨before, s', after, target, he, hs, hr⟩
    rcases List.eq_nil_or_concat after with rfl | ⟨after, x, rfl⟩
    · obtain ⟨rfl, hs'⟩ := List.append_inj' he rfl
      obtain rfl := List.singleton_inj.mp hs'
      exact .inr ⟨hs, target, hr⟩
    · rw [List.concat_eq_append, ← List.cons_append, ← List.append_assoc] at he
      exact .inl ⟨before, s', after, target, (List.append_inj' he rfl).1, hs, hr⟩
  · rintro (⟨before, s', after, target, rfl, hs, hr⟩ | ⟨hs, target, hr⟩)
    · exact ⟨before, s', after ++ [s], target, by simp, hs, hr⟩
    · exact ⟨steps, s, [], target, rfl, hs, hr⟩

theorem run_cons (d : Draft) (s : Step) (steps : List Step) :
    d.run (s :: steps) = (((d.step s).1.run steps).1, (d.step s).2 :: ((d.step s).1.run steps).2) :=
  rfl

theorem run_append (d : Draft) (steps steps' : List Step) :
    d.run (steps ++ steps') =
      (((d.run steps).1.run steps').1, (d.run steps).2 ++ ((d.run steps).1.run steps').2) := by
  induction steps generalizing d with
  | nil => rfl
  | cons s steps ih => rw [List.cons_append, run_cons, run_cons, ih, List.cons_append]

theorem run_of_isConsumed (h : d.isConsumed = true) (steps : List Step) :
    d.run steps =
      (d, List.replicate steps.length (.refused (.configuration (.alreadyBuilt d.name)))) := by
  induction steps with
  | nil => rfl
  | cons s steps ih =>
    rw [run_cons, step_of_isConsumed h, ih]
    rfl

theorem run_configure (h : d.isConsumed = false) (changes : List Change) :
    d.run (changes.map Step.configure) =
      (changes.foldl change d, List.replicate changes.length .configured) := by
  induction changes generalizing d with
  | nil => rfl
  | cons c changes ih =>
    have hopen : (d.change c).isConsumed = false := by cases c <;> exact h
    rw [List.map_cons, run_cons, step_configure h, ih hopen]
    rfl

/-- The draft and the results are those of a draft with the name `n` that the steps were done with. -/
structure Follows (n : Text) (steps : List Step) (d : Draft) (results : List Result) : Prop where
  of_not_takes : ¬ Takes n steps → d = ofSteps n steps ∧ results.countP (·.passes) = 0
  of_takes : Takes n steps → d.isConsumed = true ∧ results.countP (·.passes) = 1

theorem Follows.step {results : List Result} (h : Follows n steps d results) (s : Step) :
    Follows n (steps ++ [s]) (d.step s).1 (results ++ [(d.step s).2]) := by
  by_cases ht : Takes n steps
  · obtain ⟨hd, hcount⟩ := h.of_takes ht
    refine ⟨fun hn => absurd (takes_append_iff.mpr (.inl ht)) hn, fun _ => ?_⟩
    rw [step_of_isConsumed hd, List.countP_append, hcount]
    exact ⟨hd, rfl⟩
  · obtain ⟨rfl, hcount⟩ := h.of_not_takes ht
    -- The draft is what the changes amount to, so the step alone decides whether it takes.
    rcases step_cases (ofSteps n steps) s with ⟨e, he, hd | ⟨hs, hr⟩⟩ | ⟨c, rfl, -, he⟩ |
      ⟨target, hs, -, hr, he⟩
    · cases hd
    · have hn : ¬ Takes n (steps ++ [s]) := fun hn =>
        (takes_append_iff.mp hn).elim ht fun ⟨_, target, h⟩ => hr target h
      refine ⟨fun _ => ?_, fun h => absurd h hn⟩
      rw [he, ofSteps_of_isTerminal n steps hs, List.countP_append, hcount]
      exact ⟨rfl, rfl⟩
    · have hn : ¬ Takes n (steps ++ [Step.configure c]) := fun hn =>
        (takes_append_iff.mp hn).elim ht fun h => by cases h.1
      refine ⟨fun _ => ?_, fun h => absurd h hn⟩
      rw [he, ofSteps_configure, List.countP_append, hcount]
      exact ⟨rfl, rfl⟩
    · refine ⟨fun hn => absurd (takes_append_iff.mpr (.inr ⟨hs, target, hr⟩)) hn, fun _ => ?_⟩
      rw [he, List.countP_append, hcount, List.countP_cons_of_pos (passes_taken _ hs)]
      exact ⟨rfl, rfl⟩

theorem follows_run (n : Text) (steps : List Step) :
    Follows n steps ((new n).run steps).1 ((new n).run steps).2 := by
  induction steps using List.reverseRecOn with
  | nil => exact ⟨fun _ => ⟨rfl, rfl⟩, fun h => absurd h not_takes_nil⟩
  | append_singleton steps s ih =>
    rw [run_append]
    exact ih.step s

/-- A draft of which the specification was not taken is what all changes amount to. -/
theorem run_new (h : ¬ Takes n steps) : ((new n).run steps).1 = ofSteps n steps :=
  ((follows_run n steps).of_not_takes h).1

theorem isConsumed_run_iff : ((new n).run steps).1.isConsumed = true ↔ Takes n steps := by
  refine ⟨fun h => ?_, fun h => ((follows_run n steps).of_takes h).1⟩
  by_contra hn
  rw [run_new hn] at h
  cases h

/-- What holds after the steps of a draft that was made with the name `n`. -/
structure LifeCycle (n : Text) (steps : List Step) : Prop where
  /-- It is known from the steps whether the specification was taken. -/
  passed_iff : (∃ r ∈ ((new n).run steps).2, r.passes = true) ↔ Takes n steps
  /-- The specification is taken at most once. -/
  passes_once : ((new n).run steps).2.countP (·.passes) ≤ 1
  /-- Until it is taken, the draft is what all changes among the steps amount to. -/
  state_eq : ¬ Takes n steps → ((new n).run steps).1 = ofSteps n steps
  /-- Until it is taken, every change is accepted. -/
  accepts (c : Change) : ¬ Takes n steps →
    ((new n).run steps).1.step (.configure c) = ((ofSteps n steps).change c, .configured)
  /-- The specification is taken next exactly if it is asked for, was not taken before, the name is
  not blank, there is a target and the target accepts the parameters. -/
  passes_iff (s : Step) : (((new n).run steps).1.step s).2.passes = true ↔
    s.isTerminal = true ∧ ¬ Takes n steps ∧ ∃ target, (ofSteps n steps).IsReady target
  /-- The specification that is taken is made of all changes so far, and the draft is used up. -/
  taken_eq (s : Step) (target : Target) : ¬ Takes n steps → s.isTerminal = true →
    (ofSteps n steps).IsReady target → ((new n).run steps).1.step s =
      ((ofSteps n steps).consume, s.taken ((ofSteps n steps).specFor target))
  /-- Where something is missing, asking for it is a configuration error. -/
  refuses (s : Step) : ¬ Takes n steps → s.isTerminal = true →
    (∀ target, ¬ (ofSteps n steps).IsReady target) → ∃ e : ConfigurationError,
      ((new n).run steps).1.step s = (ofSteps n steps, .refused (.configuration e))
  /-- Changes can be made in any order that keeps the order of changes to one field. Neither what the
  steps before and after them give nor what the draft is in the end depends on it. -/
  exchange (changes changes' : List Change) (after : List Step) :
    (∀ field, changes.filter (·.field = field) = changes'.filter (·.field = field)) →
    (new n).run (steps ++ changes.map Step.configure ++ after) =
      (new n).run (steps ++ changes'.map Step.configure ++ after)
  /-- So they can if the specification is asked for in between, as long as it is not taken. -/
  reorder (steps' : List Step) : (∀ field,
      (steps'.filterMap Step.change?).filter (·.field = field) =
        (steps.filterMap Step.change?).filter (·.field = field)) →
    ¬ Takes n steps → ¬ Takes n steps' → ((new n).run steps').1 = ((new n).run steps).1
  /-- A configuration error changes nothing. -/
  unchanged (s : Step) (e : ConfigurationError) :
    (((new n).run steps).1.step s).2 = .refused (.configuration e) →
    (((new n).run steps).1.step s).1 = ((new n).run steps).1
  /-- Once the specification was taken every step is refused and changes nothing. -/
  closed (after : List Step) : Takes n steps → ∃ e : ConfigurationError,
    ((new n).run steps).1.run after =
      (((new n).run steps).1, List.replicate after.length (.refused (.configuration e))) ∧
    e.message = "Accessor " ++ ((new n).run steps).1.name ++ " has already been built"

/-- What a draft is, when its specification can be taken, and what is refused, after any steps. -/
theorem lifeCycle (n : Text) (steps : List Step) : LifeCycle n steps where
  passed_iff := by
    obtain ⟨hopen, htaken⟩ := follows_run n steps
    rw [← List.countP_pos_iff]
    by_cases h : Takes n steps
    · exact iff_of_true (by rw [(htaken h).2]; exact Nat.one_pos) h
    · exact iff_of_false (by rw [(hopen h).2]; exact Nat.lt_irrefl 0) h
  passes_once := by
    obtain ⟨hopen, htaken⟩ := follows_run n steps
    by_cases h : Takes n steps
    · exact Nat.le_of_eq (htaken h).2
    · exact (hopen h).2 ▸ Nat.zero_le 1
  state_eq := run_new
  accepts c h := by rw [run_new h, step_configure rfl]
  passes_iff s := by
    by_cases h : Takes n steps
    · rw [step_of_isConsumed (isConsumed_run_iff.mpr h)]
      exact iff_of_false (by simp [Result.passes]) fun hp => hp.2.1 h
    · rw [run_new h]
      rcases step_cases (ofSteps n steps) s with ⟨e, he, hd | ⟨-, hr⟩⟩ | ⟨c, rfl, -, he⟩ |
        ⟨target, hs, -, hr, he⟩
      · cases hd
      · rw [he]
        exact iff_of_false (by simp [Result.passes]) fun ⟨_, _, target, h⟩ => hr target h
      · rw [he]
        exact iff_of_false (by simp [Result.passes]) fun hp => by cases hp.1
      · rw [he]
        exact iff_of_true (passes_taken ((ofSteps n steps).specFor target) hs) ⟨hs, h, target, hr⟩
  taken_eq s target h hs hr := by
    rw [run_new h, step_of_spec_eq_ok hs (spec_of_isReady rfl hr)]
  refuses s h hs hr := by
    rw [run_new h]
    rcases step_cases (ofSteps n steps) s with ⟨e, he, -⟩ | ⟨c, rfl, -⟩ | ⟨target, -, -, ht, -⟩
    · exact ⟨e, he⟩
    · cases hs
    · exact absurd ht (hr target)
  exchange changes changes' after h := by
    have hlength := length_eq_of_filter_eq h
    have hrun : ((new n).run steps).1.run (changes.map Step.configure) =
        ((new n).run steps).1.run (changes'.map Step.configure) := by
      by_cases ht : Takes n steps
      · have hd := isConsumed_run_iff.mpr ht
        rw [run_of_isConsumed hd, run_of_isConsumed hd, List.length_map, List.length_map, hlength]
      · rw [run_new ht, run_configure rfl, run_configure rfl, hlength, ofSteps,
          ← ofChanges_append, ← ofChanges_append]
        refine congrArg (·, _) (ofChanges_congr fun field => ?_)
        rw [List.filter_append, List.filter_append, h]
    simp only [run_append, hrun]
  reorder steps' hf h h' := by
    rw [run_new h, run_new h']
    exact ofChanges_congr hf
  unchanged s e h := by
    rcases step_cases ((new n).run steps).1 s with ⟨e, he, -⟩ | ⟨c, rfl, -, he⟩ |
      ⟨target, hs, -, -, he⟩
    · rw [he]
    · rw [he] at h
      cases h
    · rw [he] at h
      have hp := passes_taken (((new n).run steps).1.specFor target) hs
      have ht : s.taken (((new n).run steps).1.specFor target) = .refused (.configuration e) := h
      rw [ht] at hp
      cases hp
  closed after h := ⟨_, run_of_isConsumed (isConsumed_run_iff.mpr h) after, rfl⟩

/-- A draft that is asked for its specification too early, and is used up by a build that gives no
method. -/
theorem lifeCycle_used_up :
    let steps : List Step := [.configure (.setName "g"), .freeze, .configure (.setReturnType "1"),
      .configure (.setTarget (.constructor "C"))]
    let taken : Draft := ⟨"g", false, "1", [], some (.constructor "C"), true⟩
    ¬ Takes "f" steps ∧
      (∃ e, ((new "f").run steps).1.step (.build {} none) = (taken, .refused (.method e))) ∧
      (new "f").run (steps ++ [Step.configure (.setStatic true), .configure (.setName "h")]) =
        (new "f").run (steps ++ [Step.configure (.setName "h"), .configure (.setStatic true)]) ∧
      ∃ e : ConfigurationError,
        taken.run [.configure (.setName "h"), .freeze] =
          (taken, [.refused (.configuration e), .refused (.configuration e)]) ∧
        e.message = "Accessor g has already been built" := by
  intro steps taken
  have hopen : ¬ Takes "f" steps := (lifeCycle "f" steps).passed_iff.not.mp (by decide)
  have hready : (ofSteps "f" steps).IsReady (.constructor "C") := ⟨by decide, rfl, rfl⟩
  have hstep := (lifeCycle "f" steps).taken_eq (.build {} none) _ hopen rfl hready
  obtain ⟨e, he⟩ : ∃ e, Step.taken ((ofSteps "f" steps).specFor (.constructor "C"))
      (.build {} none) = .refused (.method e) := by
    have hfails : (Spec.build {} none
        ((ofSteps "f" steps).specFor (.constructor "C"))).toOption.isNone = true := by
      decide +kernel
    rw [Step.taken]
    split
    · rename_i hm
      rw [hm] at hfails
      cases hfails
    · exact ⟨_, rfl⟩
  have hconsume : (ofSteps "f" steps).consume = taken := rfl
  rw [he, hconsume] at hstep
  have hstate : ((new "f").run (steps ++ [Step.build {} none])).1 = taken := by
    rw [run_append, run_cons, hstep, run]
  have hclosed := (lifeCycle "f" (steps ++ [Step.build {} none])).closed
    [.configure (.setName "h"), .freeze] (takes_append_iff.mpr (.inr ⟨rfl, _, hready⟩))
  rw [hstate] at hclosed
  obtain ⟨e', hrun, hmessage⟩ := hclosed
  have hexchange := (lifeCycle "f" steps).exchange [.setStatic true, .setName "h"]
    [.setName "h", .setStatic true] [] fun field => by cases field <;> rfl
  rw [List.append_nil, List.append_nil] at hexchange
  exact ⟨hopen, ⟨e, hstep⟩, hexchange, e', hrun, hmessage.trans (by decide)⟩

end MemberAccess.Accessor.Draft
