import Mathlib.Data.List.Nodup
import Mathlib.Data.List.TakeWhile
import MemberAccess.CommandLine.Run

/-!
# What a command takes from its arguments

Options that are given one by one, each value in an argument of its own, become settings in the order
in which they stand. Operands alone are all taken, and the program as a whole takes the name of a
command with everything after it.
-/

namespace MemberAccess.CommandLine

variable {options : List OptionSpec} {command : Command} {limit : Nat} {taken : Taken}

/-- A text that no command takes for an option. -/
def IsValue (t : Text) : Prop := Text.beginsWith isDash t = false

instance (t : Text) : Decidable (IsValue t) := inferInstanceAs (Decidable (_ = false))

theorem IsValue.ne_separator {t : Text} (h : IsValue t) : t ≠ "--" := by
  rintro rfl
  cases h

theorem IsValue.readingOf_eq {t : Text} (h : IsValue t) : readingOf options t = .ok .plain := by
  rw [readingOf, h]
  rfl

/-- The argument is read as it is by a command with the options, wherever it stands before a
separator. -/
structure Argument.IsRead (options : List OptionSpec) (a : Argument) : Prop where
  ne_separator : a.text ≠ "--"
  readingOf_eq : readingOf options a.text = .ok a.reading

theorem IsValue.isRead {t : Text} (h : IsValue t) : Argument.IsRead options ⟨t, .plain⟩ :=
  ⟨h.ne_separator, h.readingOf_eq⟩

/-- Arguments of which each can be read can be read together. -/
theorem exists_isRead {texts : List Text}
    (h : ∀ t ∈ texts, ∃ reading, Argument.IsRead options ⟨t, reading⟩) :
    ∃ arguments : List Argument, arguments.map (·.text) = texts ∧
      ∀ a ∈ arguments, a.IsRead options := by
  induction texts with
  | nil => exact ⟨[], rfl, List.forall_mem_nil _⟩
  | cons t texts ih =>
    obtain ⟨⟨reading, ht⟩, htexts⟩ := List.forall_mem_cons.mp h
    obtain ⟨arguments, rfl, harguments⟩ := ih htexts
    exact ⟨⟨t, reading⟩ :: arguments, rfl, List.forall_mem_cons.mpr ⟨ht, harguments⟩⟩

theorem readings_map_text {arguments : List Argument} (h : ∀ a ∈ arguments, a.IsRead options) :
    readings options (arguments.map (·.text)) = .ok arguments := by
  induction arguments with
  | nil => rfl
  | cons a arguments ih =>
    obtain ⟨ha, harguments⟩ := List.forall_mem_cons.mp h
    rw [List.map_cons, readings, if_neg ha.ne_separator, ha.readingOf_eq, ih harguments]
    rfl

theorem map_text_plain (texts : List Text) :
    (texts.map fun t => (⟨t, .plain⟩ : Argument)).map (·.text) = texts := by
  rw [List.map_map]
  exact List.map_id texts

theorem readings_values {texts : List Text} (h : ∀ t ∈ texts, IsValue t) :
    readings options texts = .ok (texts.map fun t => ⟨t, .plain⟩) := by
  have hread : ∀ a ∈ texts.map fun t => (⟨t, .plain⟩ : Argument), a.IsRead options := by
    intro a ha
    obtain ⟨t, ht, rfl⟩ := List.mem_map.mp ha
    exact (h t ht).isRead
  have hreadings := readings_map_text hread
  rwa [map_text_plain] at hreadings

/-- No option is missing if all that are required have been given. -/
theorem missingOptions_eq_nil
    (h : ∀ o ∈ options, o.isRequired = true → taken.has o.key = true) :
    ((options.filter (·.isRequired)).filter (!taken.has ·.key)).map (·.title) = [] := by
  rw [List.map_eq_nil_iff, List.filter_eq_nil_iff]
  intro o ho
  obtain ⟨ho, hreq⟩ := List.mem_filter.mp ho
  rw [h o ho hreq]
  exact Bool.noConfusion

/-- An option that is chosen by one of its names, with its value if it takes one. -/
structure Choice where
  option : OptionSpec
  name : Text
  value : Option Text

namespace Choice

def texts (c : Choice) : List Text := c.name :: c.value.toList

def arguments (c : Choice) : List Argument :=
  ⟨c.name, .known c.option c.name none⟩ :: c.value.toList.map fun v => ⟨v, .plain⟩

def setting (c : Choice) : Setting := ⟨c.option.key, c.value.getD []⟩

/-- A command with the options accepts the choice. -/
structure IsAccepted (options : List OptionSpec) (c : Choice) : Prop where
  isRead : Argument.IsRead options ⟨c.name, .known c.option c.name none⟩
  takesValue_eq : c.option.takesValue = c.value.isSome
  isValue : ∀ v ∈ c.value, IsValue v
  key_ne : c.option.key ≠ helpKey
  objection_eq : c.option.objection (c.value.getD []) = none

variable {c : Choice} {choices : List Choice}

theorem map_text_arguments (c : Choice) : c.arguments.map (·.text) = c.texts := by
  rw [arguments, texts, List.map_cons, List.map_map]
  exact congrArg _ (List.map_id _)

theorem map_text_flatMap_arguments (choices : List Choice) :
    (choices.flatMap (·.arguments)).map (·.text) = choices.flatMap (·.texts) := by
  rw [List.map_flatMap]
  exact congrArg (List.flatMap · choices) (funext map_text_arguments)

theorem IsAccepted.isRead_of_mem (h : c.IsAccepted options) {a : Argument} (ha : a ∈ c.arguments) :
    a.IsRead options := by
  rcases List.mem_cons.mp ha with rfl | ha
  · exact h.isRead
  · obtain ⟨v, hv, rfl⟩ := List.mem_map.mp ha
    exact (h.isValue v (Option.mem_toList.mp hv)).isRead

theorem IsAccepted.givenBy_eq (h : c.IsAccepted options) (limit : Nat) (rest : List Argument) :
    givenBy options ((c.value.toList.map fun v => ⟨v, .plain⟩) ++ rest) limit c.option c.name none =
      .ok ⟨[(c.option, c.value.getD [])], [], rest⟩ := by
  have htakes := h.takesValue_eq
  unfold givenBy
  cases hv : c.value with
  | none =>
    rw [hv] at htakes
    rw [htakes]
    rfl
  | some v =>
    rw [hv] at htakes
    rw [htakes]
    rfl

theorem IsAccepted.set_eq (h : c.IsAccepted options) (taken : Taken) :
    taken.set c.option (c.value.getD []) =
      .ok { taken with settings := taken.settings ++ [c.setting] } := by
  rw [Taken.set, if_neg h.key_ne, h.objection_eq]
  rfl

/-- One choice makes one setting. -/
theorem IsAccepted.takeFrom_eq (h : c.IsAccepted command.options) (limit : Nat) (taken : Taken)
    (rest : List Argument) :
    takeFrom command (limit + 1) taken (c.arguments ++ rest) =
      takeFrom command limit { taken with settings := taken.settings ++ [c.setting] } rest := by
  rw [arguments, List.cons_append, takeFrom]
  simp only [h.givenBy_eq, List.foldlM_cons, List.foldlM_nil, h.set_eq, bind, Except.bind, pure,
    Except.pure, List.append_nil]

theorem takeFrom_flatMap (h : ∀ c ∈ choices, c.IsAccepted command.options)
    (hlimit : choices.length ≤ limit) (taken : Taken) :
    takeFrom command limit taken (choices.flatMap (·.arguments)) =
      .ok { taken with settings := taken.settings ++ choices.map (·.setting) } := by
  induction choices generalizing limit taken with
  | nil =>
    rw [List.map_nil, List.append_nil]
    cases limit <;> rfl
  | cons c choices ih =>
    obtain ⟨hc, hchoices⟩ := List.forall_mem_cons.mp h
    rw [List.length_cons] at hlimit
    obtain ⟨limit, rfl⟩ : ∃ n, limit = n + 1 := ⟨limit - 1, by omega⟩
    rw [List.flatMap_cons, hc.takeFrom_eq, ih hchoices (by omega), List.append_assoc]
    rfl

theorem length_le_flatMap_arguments (choices : List Choice) :
    choices.length ≤ (choices.flatMap (·.arguments)).length := by
  induction choices with
  | nil => exact Nat.zero_le 0
  | cons c choices ih =>
    rw [List.flatMap_cons, List.length_append, List.length_cons, arguments, List.length_cons]
    omega

end Choice

/-- A command without operands takes all choices, if nothing that it requires is missing. -/
theorem Command.take_choices {choices : List Choice} (hoperands : command.operands = .none)
    (h : ∀ c ∈ choices, c.IsAccepted command.options)
    (hrequired : ∀ o ∈ command.options, o.isRequired = true → ∃ c ∈ choices, c.option.key = o.key) :
    command.take (choices.flatMap (·.texts)) = .ok { settings := choices.map (·.setting) } := by
  have hread : readings command.options (choices.flatMap (·.texts)) =
      .ok (choices.flatMap (·.arguments)) := by
    rw [← Choice.map_text_flatMap_arguments]
    apply readings_map_text
    intro a ha
    obtain ⟨c, hc, ha⟩ := List.mem_flatMap.mp ha
    exact (h c hc).isRead_of_mem ha
  have hmissing : missing command { settings := choices.map (·.setting) } = [] := by
    rw [missing, hoperands, List.append_nil]
    apply missingOptions_eq_nil
    intro o ho hreq
    obtain ⟨c, hc, hkey⟩ := hrequired o ho hreq
    rw [Taken.has, List.any_eq_true]
    exact ⟨c.setting, List.mem_map_of_mem hc, decide_eq_true hkey⟩
  rw [Command.take, hread]
  simp only [Choice.takeFrom_flatMap h (Choice.length_le_flatMap_arguments choices), bind,
    Except.bind, List.nil_append, hmissing]
  rfl

theorem Taken.value?_eq (t : Taken) (key : Text) : t.value? key = (t.values key).getLast? := by
  rw [Taken.value?, Taken.values, List.getLast?_map, ← List.head?_reverse, ← List.filter_reverse,
    List.head?_filter]

theorem Taken.has_eq (t : Taken) (key : Text) : t.has key = !(t.values key).isEmpty := by
  rw [Bool.eq_iff_iff]
  simp [Taken.has, Taken.values]

/-- The operands are taken all at once. -/
theorem takeFrom_operands {a : Argument} {arguments : List Argument} {texts : List Text}
    (ha : a.reading = .plain) (hnone : taken.operands = none)
    (h : takeOperands? command.operands (a :: arguments) = some (texts, [])) :
    takeFrom command (limit + 1) taken (a :: arguments) =
      .ok { taken with operands := some texts } := by
  rw [takeFrom, ha]
  simp only [hnone, Option.isSome_none, Bool.false_eq_true, if_false, h]
  cases limit <;> rfl

theorem takeOperands?_oneOrMore {name help t : Text} {texts : List Text}
    (h : ∀ u ∈ t :: texts, IsValue u) :
    takeOperands? (.oneOrMore name help) ((t :: texts).map fun u => ⟨u, .plain⟩) =
      some (t :: texts, []) := by
  have hoperand : ∀ a ∈ (t :: texts).map fun u => (⟨u, .plain⟩ : Argument),
      a.isOperand = true := by
    intro a ha
    obtain ⟨u, -, rfl⟩ := List.mem_map.mp ha
    rfl
  have hseparator : Text.ofString "--" ∉ t :: texts := fun hmem => (h _ hmem).ne_separator rfl
  have hplain : (((t :: texts).map fun u => (⟨u, .plain⟩ : Argument)).dropWhile
      (·.isSeparator)).head?.map (·.isPlain) = some true := rfl
  rw [takeOperands?, hplain, Option.getD_some, if_pos rfl]
  simp only [List.takeWhile_eq_self_iff.mpr hoperand, List.dropWhile_eq_nil_iff.mpr hoperand,
    map_text_plain, List.erase_of_not_mem hseparator]

/-- A command that requires no options takes all operands, if there is one. -/
theorem Command.take_operands {name help : Text} {texts : List Text}
    (hoperands : command.operands = .oneOrMore name help)
    (hrequired : ∀ o ∈ command.options, o.isRequired = false)
    (hne : texts ≠ []) (h : ∀ t ∈ texts, IsValue t) :
    command.take texts = .ok { operands := some texts } := by
  obtain ⟨t, texts, rfl⟩ := List.exists_cons_of_ne_nil hne
  have htake : takeOperands? command.operands ((t :: texts).map fun u => ⟨u, .plain⟩) =
      some (t :: texts, []) := by
    rw [hoperands]
    exact takeOperands?_oneOrMore h
  have hmissing : missing command { operands := some (t :: texts) } = [] := by
    rw [missing, missingOptions_eq_nil fun o ho hreq => by simp [hrequired o ho] at hreq, hoperands]
    rfl
  rw [Command.take, readings_values h]
  simp only [List.map_cons, List.length_cons, bind, Except.bind]
  rw [takeFrom_operands rfl rfl htake]
  simp only [hmissing]
  rfl

/-- The program takes the name of a command and leaves to the command all that comes after it. -/
theorem take_mainCommand {word : Text} {texts : List Text} (hword : IsValue word)
    (h : ∀ t ∈ texts, ∃ reading, Argument.IsRead mainCommand.options ⟨t, reading⟩) :
    mainCommand.take (word :: texts) = .ok { operands := some (word :: texts) } := by
  obtain ⟨arguments, rfl, harguments⟩ := exists_isRead h
  have hread : readings mainCommand.options (word :: arguments.map (·.text)) =
      .ok (⟨word, .plain⟩ :: arguments) :=
    readings_map_text (List.forall_mem_cons.mpr ⟨hword.isRead, harguments⟩)
  have htake : takeOperands? mainCommand.operands (⟨word, .plain⟩ :: arguments) =
      some (word :: arguments.map (·.text), []) := rfl
  rw [Command.take, hread]
  simp only [List.length_cons, bind, Except.bind]
  rw [takeFrom_operands rfl rfl htake]
  rfl

theorem isValue_name (task : Task) : IsValue task.name := by
  cases task <;> rfl

theorem ofName?_name (task : Task) : Task.ofName? task.name = some task := by
  cases task <;> decide

theorem run_name (files : Files) (task : Task) {texts : List Text}
    (h : ∀ t ∈ texts, ∃ reading, Argument.IsRead mainCommand.options ⟨t, reading⟩) :
    run files (task.name :: texts) = runTask files false [] task texts := by
  rw [run, take_mainCommand (isValue_name task) h]
  simp only [ofName?_name]
  rfl

variable {o : OptionSpec} {name : Text}

theorem exactly?_eq_some (hnodup : ((namedOptions options).map Prod.fst).Nodup) (ho : o ∈ options)
    (hname : name ∈ o.names) : exactly? options name = some o := by
  have hmem : (name, o) ∈ namedOptions options :=
    List.mem_flatMap.mpr ⟨o, ho, List.mem_map.mpr ⟨name, hname, rfl⟩⟩
  rw [exactly?]
  cases hfind : (namedOptions options).find? (·.1 = name) with
  | none => exact absurd (decide_eq_true rfl) (List.find?_eq_none.mp hfind _ hmem)
  | some p =>
    have hp : p.1 = name := by simpa using List.find?_some hfind
    rw [List.inj_on_of_nodup_map hnodup (List.mem_of_find?_eq_some hfind) hmem hp]
    rfl

namespace Task

theorem nodup_names (task : Task) : ((namedOptions task.options).map Prod.fst).Nodup := by
  cases task <;> decide

theorem isDashed_name (task : Task) : ∀ o ∈ task.options, ∀ name ∈ o.names,
    name ≠ "--" ∧ (Text.beginsWith isDash name && decide (name.length > 1)) = true := by
  cases task <;> decide

/-- A command reads each name of an option as the option. -/
theorem isRead_name (task : Task) (ho : o ∈ task.options) (hname : name ∈ o.names) :
    Argument.IsRead task.options ⟨name, .known o name none⟩ := by
  obtain ⟨hne, hdashed⟩ := task.isDashed_name o ho name hname
  refine ⟨hne, ?_⟩
  rw [readingOf, if_pos hdashed, readingOfDashed, exactly?_eq_some task.nodup_names ho hname]

/-- The program passes on each name of an option of a command. -/
theorem exists_isRead_name (task : Task) (ho : o ∈ task.options) (hname : name ∈ o.names) :
    ∃ reading, Argument.IsRead mainCommand.options ⟨name, reading⟩ := by
  have hread : ∀ o ∈ task.options, ∀ name ∈ o.names,
      (readingOf mainCommand.options name).toOption.isSome := by
    cases task <;> decide
  have hsome := hread o ho name hname
  cases hreading : readingOf mainCommand.options name with
  | ok reading => exact ⟨reading, (task.isDashed_name o ho name hname).1, hreading⟩
  | error message =>
    rw [hreading] at hsome
    cases hsome

end Task

end MemberAccess.CommandLine
