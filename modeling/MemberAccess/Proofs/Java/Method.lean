import MemberAccess.Grammar.Recognition
import MemberAccess.Java.Method
import MemberAccess.Proofs.Java.Ebnf.Completeness
import MemberAccess.Proofs.Java.Ebnf.Soundness
import MemberAccess.Proofs.Java.Scan

/-!
# The methods of a language

A text is parsed if and only if it can be read to its end and its tokens derive from the written
grammar, and the result is the value of one of their trees.
-/

namespace MemberAccess.Java

variable {t : Text} {s : Scan} {m : MethodDeclaration}

theorem exists_ok_of_isSome {E A : Type} {x : Except E A} (h : x.toOption.isSome) :
    ∃ a, x = .ok a := by
  cases x with
  | error e => cases h
  | ok a => exact ⟨a, rfl⟩

/-- The method found is the result of the threads that survive all tokens. -/
theorem survivors_of_methodOfScan (h : methodOfScan t s = .ok m) :
    s.unread = [] ∧ ∃ threads, grammar.survivors (grammar.start .method) s.tokens = .ok threads ∧
      grammar.complete? threads = some m := by
  simp only [methodOfScan] at h
  split at h
  · cases h
  · rename_i threads hs
    split at h
    · rename_i hu
      split at h
      · rename_i m' hm
        cases h
        exact ⟨hu, threads, hs, hm⟩
      · cases h
    · cases h

theorem derives_of_methodOfScan (h : methodOfScan t s = .ok m) :
    s.unread = [] ∧ Nonterminal.method.Derives (s.tokens.map (·.toLexeme)) m := by
  obtain ⟨hu, threads, hs, hm⟩ := survivors_of_methodOfScan h
  exact ⟨hu, Grammar.Bounded.derives_of_survivors hs hm⟩

theorem exists_methodOfScan (hu : s.unread = [])
    (h : Nonterminal.method.Derives (s.tokens.map (·.toLexeme)) m) :
    ∃ m', methodOfScan t s = .ok m' := by
  obtain ⟨threads, m', hs, hm⟩ := Grammar.Bounded.exists_survivors_of_derives (G := grammar) rfl h
  refine ⟨m', ?_⟩
  simp only [methodOfScan, hs, hu, hm]

theorem parse_eq_ok_iff {source : Text} :
    parse source = .ok m ↔ methodOfScan (unescape source) (scan (unescape source)) = .ok m := by
  simp only [parse]
  split <;> simp_all

theorem survivors_of_parse {source : Text} (h : parse source = .ok m) :
    ∃ tokens threads, Scans .start (unescape source) tokens [] ∧
      grammar.survivors (grammar.start .method) tokens = .ok threads ∧
      grammar.complete? threads = some m := by
  obtain ⟨hu, threads, hm⟩ := survivors_of_methodOfScan (parse_eq_ok_iff.mp h)
  have hs := scans_scan (unescape source)
  rw [hu] at hs
  exact ⟨_, threads, hs, hm⟩

/-- The method found is one that the tokens derive. -/
theorem derives_of_parse {source : Text} (h : parse source = .ok m) :
    ∃ tokens, Scans .start (unescape source) tokens [] ∧
      Nonterminal.method.Derives (tokens.map (·.toLexeme)) m := by
  obtain ⟨tokens, threads, hs, ht, hm⟩ := survivors_of_parse h
  exact ⟨tokens, hs, Grammar.Bounded.derives_of_survivors ht hm⟩

theorem exists_parse {source : Text} {tokens : List Token}
    (hs : Scans .start (unescape source) tokens [])
    (h : Nonterminal.method.Derives (tokens.map (·.toLexeme)) m) :
    ∃ m', parse source = .ok m' := by
  have he := scan_eq_iff.mpr hs
  obtain ⟨m', hm⟩ := exists_methodOfScan (t := unescape source)
    (s := ⟨tokens, []⟩) rfl h
  exact ⟨m', parse_eq_ok_iff.mpr (he ▸ hm)⟩

theorem text_of_parse_eq_error {source : Text} {e : MethodError} (h : parse source = .error e) :
    e.text = source := by
  simp only [parse] at h
  split at h
  · cases h
  · cases h
    rfl

open Ebnf in
/-- A text is parsed if and only if it can be read to its end and the tokens derive from the written
grammar. The result is the value of a tree over exactly these tokens; every tree of a method has a
method for its value, and a text that is refused stands in the error as it was given. -/
theorem parse_spec (source : Text) :
    ((∃ m, parse source = .ok m) ↔
      ∃ tokens tree, Scans .start (unescape source) tokens [] ∧
        Derives .start (tokens.map (·.toLexeme)) tree) ∧
    (∀ m, parse source = .ok m →
      ∃ tokens tree, Scans .start (unescape source) tokens [] ∧
        Derives .start (tokens.map (·.toLexeme)) tree ∧ tree.value = some (.method m)) ∧
    (∀ e, parse source = .error e → e.text = source) ∧
    ∀ w tree, Derives .start w tree → ∃ m, tree.value = some (.method m) := by
  have hvalue : ∀ m, parse source = .ok m →
      ∃ tokens tree, Scans .start (unescape source) tokens [] ∧
        Derives .start (tokens.map (·.toLexeme)) tree ∧ tree.value = some (.method m) := by
    intro m h
    obtain ⟨tokens, hs, hm⟩ := derives_of_parse h
    obtain ⟨tree, ht, hv⟩ := exists_tree_of_derives hm
    exact ⟨tokens, tree, hs, ht, hv⟩
  refine ⟨⟨?_, ?_⟩, hvalue, fun e h => text_of_parse_eq_error h, ?_⟩
  · rintro ⟨m, h⟩
    obtain ⟨tokens, tree, hs, ht, -⟩ := hvalue m h
    exact ⟨tokens, tree, hs, ht⟩
  · rintro ⟨tokens, tree, hs, ht⟩
    obtain ⟨_, m', -, hm, -⟩ := ht.exists_method
    exact exists_parse hs hm
  · intro w tree h
    obtain ⟨m, -, hv, -⟩ := h.exists_method
    exact ⟨m, hv⟩

end MemberAccess.Java
