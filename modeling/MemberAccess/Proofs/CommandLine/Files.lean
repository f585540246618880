import Mathlib.Data.List.Forall2
import MemberAccess.Proofs.CommandLine.Arguments
import MemberAccess.Proofs.Java.Method
import MemberAccess.Proofs.Text.Utf8

/-!
# Methods in files

A file gives the method of the text that was written to it, whatever ends its lines. Of several files
the methods are printed up to the first that has none, and nothing after it matters.
-/

namespace MemberAccess

/-- A text gives the same method or the same error if it is read from a file, with its lines ending
in any of the three ways. -/
theorem Java.parse_ofFile_write (e : Text.LineEnd) (s : String) (h : '\r' ∉ s.toList) :
    parse (Text.ofFile (e.write s).toUTF8.data.toList) = parse (Text.ofString s) := by
  rw [Text.ofFile_write e h]

/-- The comment ends with its line in each of the ways. -/
theorem Java.parse_ofFile_write_comment :
    let s := "int f() \x7b // é€😀\n\x7d"
    '\r' ∉ s.toList ∧
    ∀ e : Text.LineEnd, ∃ m, parse (Text.ofFile (e.write s).toUTF8.data.toList) = .ok m := by
  intro s
  have h : '\r' ∉ s.toList := by decide
  refine ⟨h, fun e => ?_⟩
  rw [parse_ofFile_write e s h]
  exact exists_ok_of_isSome (by decide +kernel)

namespace CommandLine

open Java

namespace Files

variable {files files' : Files} {name message : Text} {names before after : List Text}
  {m : MethodDeclaration} {methods : List MethodDeclaration}

/-- The file with the name holds the method. -/
def Holds (files : Files) (name : Text) (m : MethodDeclaration) : Prop :=
  ∃ bytes, files name = some bytes ∧ parse (Text.ofFile bytes) = .ok m

/-- There is no file with the name, or no method in it, as the message says. -/
def Lacks (files : Files) (name message : Text) : Prop :=
  (files name = none ∧ message = "Error: File not found: " ++ name) ∨
  ∃ bytes e, files name = some bytes ∧ parse (Text.ofFile bytes) = .error e ∧
    message = "Error parsing " ++ name ++ ": " ++ e.fault.message

theorem holds_or_lacks (files : Files) (name : Text) :
    (∃ m, files.Holds name m) ∨ ∃ message, files.Lacks name message := by
  cases hbytes : files name with
  | none => exact .inr ⟨_, .inl ⟨hbytes, rfl⟩⟩
  | some bytes =>
    cases hparse : parse (Text.ofFile bytes) with
    | ok m => exact .inl ⟨m, bytes, hbytes, hparse⟩
    | error e => exact .inr ⟨_, .inr ⟨bytes, e, hbytes, hparse, rfl⟩⟩

theorem Holds.unique {m' : MethodDeclaration} (h : files.Holds name m) (h' : files.Holds name m') :
    m = m' := by
  obtain ⟨bytes, hbytes, hparse⟩ := h
  obtain ⟨bytes', hbytes', hparse'⟩ := h'
  cases hbytes.symm.trans hbytes'
  exact Except.ok.inj (hparse.symm.trans hparse')

theorem Holds.not_lacks (h : files.Holds name m) : ¬ files.Lacks name message := by
  obtain ⟨bytes, hbytes, hparse⟩ := h
  rintro (⟨hnone, -⟩ | ⟨bytes', e, hbytes', hparse', -⟩)
  · cases hbytes.symm.trans hnone
  · cases hbytes.symm.trans hbytes'
    cases hparse.symm.trans hparse'

theorem Lacks.unique {message' : Text} (h : files.Lacks name message)
    (h' : files.Lacks name message') : message = message' := by
  rcases h with ⟨hnone, rfl⟩ | ⟨bytes, e, hbytes, hparse, rfl⟩ <;>
    rcases h' with ⟨hnone', rfl⟩ | ⟨bytes', e', hbytes', hparse', rfl⟩
  · rfl
  · cases hnone.symm.trans hbytes'
  · cases hbytes.symm.trans hnone'
  · cases hbytes.symm.trans hbytes'
    cases hparse.symm.trans hparse'
    rfl

theorem Holds.congr (h : files.Holds name m) (heq : files' name = files name) :
    files'.Holds name m := by
  obtain ⟨bytes, hbytes, hparse⟩ := h
  exact ⟨bytes, heq.trans hbytes, hparse⟩

theorem Lacks.congr (h : files.Lacks name message) (heq : files' name = files name) :
    files'.Lacks name message := by
  rcases h with ⟨hbytes, hmessage⟩ | ⟨bytes, e, hbytes, hparse⟩
  · exact .inl ⟨heq.trans hbytes, hmessage⟩
  · exact .inr ⟨bytes, e, heq.trans hbytes, hparse⟩

theorem forall₂_holds_congr (h : List.Forall₂ files.Holds names methods)
    (heq : ∀ name ∈ names, files' name = files name) : List.Forall₂ files'.Holds names methods := by
  induction h with
  | nil => exact .nil
  | cons hm _ ih =>
    obtain ⟨hname, hnames⟩ := List.forall_mem_cons.mp heq
    exact .cons (hm.congr hname) (ih hnames)

/-- Either all files hold methods, or there is a first that holds none. -/
theorem exists_first_lack (files : Files) (names : List Text) :
    (∃ methods, List.Forall₂ files.Holds names methods) ∨
    ∃ before name after methods message, names = before ++ name :: after ∧
      List.Forall₂ files.Holds before methods ∧ files.Lacks name message := by
  induction names with
  | nil => exact .inl ⟨[], .nil⟩
  | cons first names ih =>
    rcases holds_or_lacks files first with ⟨m, hm⟩ | ⟨message, hlacks⟩
    · rcases ih with ⟨methods, hall⟩ | ⟨before, name, after, methods, message, rfl, hall, hlacks⟩
      · exact .inl ⟨m :: methods, .cons hm hall⟩
      · exact .inr ⟨first :: before, name, after, m :: methods, message, rfl, .cons hm hall, hlacks⟩
    · exact .inr ⟨[], first, names, [], message, rfl, .nil, hlacks⟩

theorem parseFiles_cons (h : files.Holds name m) (output : Text) (names : List Text) :
    parseFiles files output (name :: names) = parseFiles files (output ++ astText m) names := by
  obtain ⟨bytes, hbytes, hparse⟩ := h
  rw [parseFiles]
  simp only [hbytes, hparse]

theorem parseFiles_append (h : List.Forall₂ files.Holds before methods) (output : Text)
    (names : List Text) :
    parseFiles files output (before ++ names) =
      parseFiles files (output ++ methods.flatMap astText) names := by
  induction h generalizing output with
  | nil => rw [List.flatMap_nil, List.append_nil, List.nil_append]
  | cons hm _ ih =>
    rw [List.cons_append, parseFiles_cons hm, ih, List.flatMap_cons, List.append_assoc]

theorem parseFiles_eq_done (h : List.Forall₂ files.Holds names methods) :
    parseFiles files [] names = .done (methods.flatMap astText) := by
  have happend := parseFiles_append h [] []
  rwa [List.append_nil] at happend

/-- What comes after a file without a method is not looked at. -/
theorem parseFiles_eq_failure (h : List.Forall₂ files.Holds before methods)
    (hlacks : files.Lacks name message) (after : List Text) :
    parseFiles files [] (before ++ name :: after) =
      .failure (methods.flatMap astText) message := by
  rw [parseFiles_append h, parseFiles, List.nil_append]
  rcases hlacks with ⟨hbytes, rfl⟩ | ⟨bytes, e, hbytes, hparse, rfl⟩
  · simp only [hbytes]
  · simp only [hbytes, hparse]

end Files

/-- The command for files gets all of them. -/
theorem run_parse_eq (files : Files) {names : List Text} (hne : names ≠ [])
    (h : ∀ name ∈ names, IsValue name) :
    run files ("parse" :: names) = parseFiles files [] names := by
  have hrun := run_name files .parse fun name hname => ⟨.plain, (h name hname).isRead⟩
  have htake : Task.parse.command.take names = .ok { operands := some names } :=
    Command.take_operands rfl (by decide) hne h
  refine hrun.trans ?_
  rw [runTask, htake]
  rfl

/-- The methods of files are printed in order up to the first file that holds none, which is reported
alone. What comes after it does not matter. -/
theorem run_parse (files : Files) (names : List Text) (hne : names ≠ [])
    (hvalue : ∀ name ∈ names, IsValue name) :
    (∃ methods, List.Forall₂ files.Holds names methods ∧
      run files ("parse" :: names) =
        ⟨0, methods.flatMap fun m => m.toJson.render 2 ++ "\n", []⟩) ∨
    ∃ before name after methods message, names = before ++ name :: after ∧
      List.Forall₂ files.Holds before methods ∧ files.Lacks name message ∧
      run files ("parse" :: names) =
        ⟨1, methods.flatMap fun m => m.toJson.render 2 ++ "\n", message ++ "\n"⟩ ∧
      ∀ (files' : Files) (after' : List Text),
        (∀ n ∈ before ++ [name], files' n = files n) → (∀ n ∈ after', IsValue n) →
        run files' ("parse" :: (before ++ name :: after')) = run files ("parse" :: names) := by
  rw [run_parse_eq files hne hvalue]
  rcases files.exists_first_lack names with
    ⟨methods, hall⟩ | ⟨before, name, after, methods, message, rfl, hall, hlacks⟩
  · exact .inl ⟨methods, hall, Files.parseFiles_eq_done hall⟩
  · refine .inr ⟨before, name, after, methods, message, rfl, hall, hlacks,
      Files.parseFiles_eq_failure hall hlacks after, ?_⟩
    -- The other run fails at the same file, with the same methods before it.
    intro files' after' hfiles hafter
    obtain ⟨hbefore, hname⟩ := List.forall_mem_append.mp hfiles
    have hvalue' : ∀ n ∈ before ++ name :: after', IsValue n := by
      obtain ⟨hvalues, hrest⟩ := List.forall_mem_append.mp hvalue
      have hfirst := (List.forall_mem_cons.mp hrest).1
      exact List.forall_mem_append.mpr ⟨hvalues, List.forall_mem_cons.mpr ⟨hfirst, hafter⟩⟩
    rw [run_parse_eq files' (by simp) hvalue', Files.parseFiles_eq_failure hall hlacks after]
    exact Files.parseFiles_eq_failure (Files.forall₂_holds_congr hall hbefore)
      (hlacks.congr (hname name (List.mem_singleton.mpr rfl))) after'

theorem run_parse_missing :
    let files : Files := fun name =>
      if name = "A" then some "int f();".toUTF8.data.toList else none
    let names : List Text := ["A", "B", "A"]
    names ≠ [] ∧ (∀ name ∈ names, IsValue name) ∧
    ∃ m, files.Holds "A" m ∧
      run files ("parse" :: names) =
        ⟨1, m.toJson.render 2 ++ "\n", "Error: File not found: B\n"⟩ := by
  intro files names
  have hne : names ≠ [] := by decide
  have hvalue : ∀ name ∈ names, IsValue name := by decide
  have hlacksB : files.Lacks "B" "Error: File not found: B" := .inl ⟨rfl, rfl⟩
  obtain ⟨m, hm⟩ : ∃ m, files.Holds "A" m := by
    have hparse : ∃ m, parse (Text.ofFile "int f();".toUTF8.data.toList) = .ok m :=
      exists_ok_of_isSome (by decide +kernel)
    exact hparse.imp fun m hm => ⟨_, rfl, hm⟩
  refine ⟨hne, hvalue, m, hm, ?_⟩
  rcases run_parse files names hne hvalue with
    ⟨methods, hall, -⟩ | ⟨before, name, after, methods, message, hnames, hall, hlacks, hrun, -⟩
  · change List.Forall₂ files.Holds ["A", "B", "A"] methods at hall
    rcases hall with _ | ⟨-, _ | ⟨hB, -⟩⟩
    exact absurd hlacksB hB.not_lacks
  · change (["A", "B", "A"] : List Text) = before ++ name :: after at hnames
    rcases hall with _ | ⟨hA, _ | ⟨hB, -⟩⟩
    · cases hnames
      exact absurd hlacks hm.not_lacks
    · cases hnames
      rw [hrun, hlacks.unique hlacksB, hA.unique hm, List.flatMap_singleton]
      rfl
    · obtain ⟨-, hnames⟩ := List.cons.inj hnames
      obtain ⟨rfl, -⟩ := List.cons.inj hnames
      exact absurd hlacksB hB.not_lacks

end CommandLine

end MemberAccess
