import MemberAccess.Proofs.Grammar.Viable
import MemberAccess.Proofs.Java.Escape
import MemberAccess.Proofs.Java.Method
import MemberAccess.Proofs.Java.Productive
import MemberAccess.Proofs.Java.Spelling
import MemberAccess.Proofs.Text.Position

/-!
# Where faults are reported

A fault is reported at the first token after which no method goes on, or else where no token can be
read, or else at the end of the text.
-/

namespace MemberAccess.Java

open Lexer

/-- The lexemes are the first ones of some method. -/
def BeginsMethod (w : List Lexeme) : Prop :=
  ∃ source m tokens, parse source = .ok m ∧ Scans .start (unescape source) tokens [] ∧
    w <+: tokens.map (·.toLexeme)

def sample : Terminal → Text
  | .keyword k => k.text
  | .mark m => m.text
  | .identifier => "a"
  | .integer => "0"
  | .floating => "0f"
  | .character => "''"
  | .string => "\"\""

theorem readable_sample (k : Terminal) : Readable ⟨k, sample k⟩ := by
  cases k with
  | keyword k => exact readable_keyword k
  | mark m => exact readable_mark m
  | identifier =>
    have ht : wordTerminal (sample .identifier) = .identifier := by decide
    have := ReadBefore.word (r := []) (x := sample .identifier) ⟨by decide, by decide⟩ rfl
    rw [ht] at this
    exact ⟨[], this⟩
  | integer => exact ⟨[], .integer (by decide) (by decide)⟩
  | floating => exact ⟨[], .floating (by decide)⟩
  | character => exact ⟨[], .character ⟨_, rfl, .mark⟩⟩
  | string => exact ⟨[], .string ⟨_, rfl, .mark⟩⟩

def sampled (w : List Lexeme) : List Lexeme := w.map fun l => ⟨l.terminal, sample l.terminal⟩

theorem readable_of_mem_sampled {w : List Lexeme} {l : Lexeme} (h : l ∈ sampled w) : Readable l := by
  obtain ⟨l', -, rfl⟩ := List.mem_map.mp h
  exact readable_sample l'.terminal

/-- Lexemes that derive from the beginning of a method are written in one. -/
theorem BeginsMethod.of_is {w v : List Lexeme} (hw : ∀ l ∈ w, Readable l)
    (h : grammar.Is .method (w ++ v)) : BeginsMethod w := by
  have hr : ∀ l ∈ w ++ sampled v, Readable l := fun l hl =>
    (List.mem_append.mp hl).elim (hw l) readable_of_mem_sampled
  obtain ⟨tokens, hs, ht⟩ := (spelled_spaced hr).exists_scans .start
  obtain ⟨m, hm⟩ := h.retext (by simp [sampled] : (w ++ sampled v).map (·.terminal) = _)
  rw [← unescape_escaped (spaced (w ++ sampled v))] at hs
  rw [← ht] at hm
  obtain ⟨m', hm'⟩ := exists_parse hs hm
  exact ⟨_, m', tokens, hm', hs, sampled v, ht.symm⟩

theorem BeginsMethod.exists_is {w : List Lexeme} (h : BeginsMethod w) :
    ∃ v, grammar.Is .method (w ++ v) := by
  obtain ⟨source, m, tokens, hm, hs, v, hv⟩ := h
  obtain ⟨tokens', hs', hd⟩ := derives_of_parse hm
  have := hs.from_eq.symm.trans hs'.from_eq
  cases this
  exact ⟨v, m, hv ▸ hd⟩

theorem BeginsMethod.mono {w w' : List Lexeme} (h : BeginsMethod w) (hw : w' <+: w) :
    BeginsMethod w' := by
  obtain ⟨source, m, tokens, hm, hs, hv⟩ := h
  exact ⟨source, m, tokens, hm, hs, hw.trans hv⟩

/-- After the token no method goes on, and after the tokens before it some method does. -/
def FirstRefused (tokens : List Token) (token : Token) : Prop :=
  ∃ before after, tokens = before ++ token :: after ∧
    BeginsMethod (before.map (·.toLexeme)) ∧
    ¬ BeginsMethod ((before ++ [token]).map (·.toLexeme))

theorem FirstRefused.not_beginsMethod {tokens : List Token} {token : Token}
    (h : FirstRefused tokens token) : ¬ BeginsMethod (tokens.map (·.toLexeme)) := by
  obtain ⟨u, v, rfl, -, hn⟩ := h
  exact fun hb => hn (hb.mono (List.IsPrefix.map _ ⟨v, by simp⟩))

theorem FirstRefused.unique {tokens : List Token} {token token' : Token}
    (h : FirstRefused tokens token) (h' : FirstRefused tokens token') : token = token' := by
  obtain ⟨u, v, rfl, hu, hn⟩ := h
  obtain ⟨u', v', he, hu', hn'⟩ := h'
  rcases List.append_eq_append_iff.mp he with ⟨z, rfl, hz⟩ | ⟨z, rfl, hz⟩
  · cases z with
    | nil => exact (List.cons.inj hz).1
    | cons d z =>
      obtain ⟨rfl, -⟩ := List.cons.inj hz
      exact absurd (hu'.mono (List.IsPrefix.map _ ⟨z, by simp⟩)) hn
  · cases z with
    | nil => exact (List.cons.inj hz).1.symm
    | cons d z =>
      obtain ⟨rfl, -⟩ := List.cons.inj hz
      exact absurd (hu.mono (List.IsPrefix.map _ ⟨z, by simp⟩)) hn'

/-- The fault of a text that is no method, told by what methods there are. -/
def HasFault (t : Text) (s : Scan) : Fault → Prop
  | .unexpectedToken token => FirstRefused s.tokens token
  | .unexpectedCharacter before after last =>
    (∀ token, ¬ FirstRefused s.tokens token) ∧ (∃ c rest, after = c :: rest) ∧
      after = s.unread ∧ t = before ++ after ∧ last = s.tokens.getLast?
  | .unexpectedEnd =>
    (∀ token, ¬ FirstRefused s.tokens token) ∧ s.unread = [] ∧
      (∀ w, w <+: s.tokens.map (·.toLexeme) → BeginsMethod w) ∧
      ∀ m, ¬ Nonterminal.method.Derives (s.tokens.map (·.toLexeme)) m

theorem HasFault.unique {t : Text} {s : Scan} {fault fault' : Fault} (h : HasFault t s fault)
    (h' : HasFault t s fault') : fault = fault' := by
  cases fault with
  | unexpectedToken token =>
    cases fault' with
    | unexpectedToken token' => rw [FirstRefused.unique h h']
    | unexpectedCharacter => exact absurd h (h'.1 token)
    | unexpectedEnd => exact absurd h (h'.1 token)
  | unexpectedCharacter before after last =>
    obtain ⟨hn, ⟨c, rest, hc⟩, hu, ht, hl⟩ := h
    cases fault' with
    | unexpectedToken token' => exact absurd h' (hn token')
    | unexpectedCharacter before' after' last' =>
      obtain ⟨-, -, hu', ht', hl'⟩ := h'
      subst hu hu' hl hl'
      rw [List.append_cancel_right (ht.symm.trans ht')]
    | unexpectedEnd => exact absurd (hu.trans h'.2.1) (by simp [hc])
  | unexpectedEnd =>
    cases fault' with
    | unexpectedToken token' => exact absurd h' (h.1 token')
    | unexpectedCharacter =>
      obtain ⟨-, ⟨c, rest, hc⟩, hu, -⟩ := h'
      exact absurd (hu.trans h.2.1) (by simp [hc])
    | unexpectedEnd => rfl

variable {t : Text} {s : Scan}

theorem Scans.exists_append {p : Position} {unread : Text} {tokens : List Token}
    (h : Scans p t tokens unread) : ∃ u, t = u ++ unread := by
  induction h with
  | done => exact ⟨[], rfl⟩
  | stuck => exact ⟨[], rfl⟩
  | @layout _ x _ _ _ _ _ ih | @token _ x _ _ _ _ _ _ ih =>
    obtain ⟨u, rfl⟩ := ih
    exact ⟨x ++ u, (List.append_assoc ..).symm⟩

theorem firstRefused_of_survivors {token : Token} (hr : ∀ token ∈ s.tokens, Readable token.toLexeme)
    (h : grammar.survivors (grammar.start .method) s.tokens = .error token) :
    FirstRefused s.tokens token := by
  obtain ⟨before, after, he, ⟨w, hw⟩, hn⟩ :=
    Grammar.Bounded.exists_of_refused Nonterminal.exists_is rfl h
  refine ⟨before, after, he, .of_is ?_ hw, fun hb => ?_⟩
  · intro l hl
    obtain ⟨token', hm, rfl⟩ := List.mem_map.mp hl
    exact hr token' (he ▸ List.mem_append_left _ hm)
  · obtain ⟨v, hv⟩ := hb.exists_is
    exact hn v (by simpa using hv)

theorem beginsMethod_of_survivors {last} (hr : ∀ token ∈ s.tokens, Readable token.toLexeme)
    (h : grammar.survivors (grammar.start .method) s.tokens = .ok last) :
    BeginsMethod (s.tokens.map (·.toLexeme)) := by
  obtain ⟨w, hw⟩ := Grammar.Bounded.exists_is_of_survivors Nonterminal.exists_is h
  refine .of_is (fun l hl => ?_) hw
  obtain ⟨token, hm, rfl⟩ := List.mem_map.mp hl
  exact hr token hm

theorem hasFault_of_methodOfScan {fault : Fault}
    (hr : ∀ token ∈ s.tokens, Readable token.toLexeme) (ht : ∃ u, t = u ++ s.unread)
    (h : methodOfScan t s = .error fault) : HasFault t s fault := by
  simp only [methodOfScan] at h
  split at h
  · rename_i token hs
    cases h
    exact firstRefused_of_survivors hr hs
  · rename_i threads hs
    have hb := beginsMethod_of_survivors hr hs
    have hn : ∀ token, ¬ FirstRefused s.tokens token := fun token ht => ht.not_beginsMethod hb
    split at h
    · rename_i hu
      split at h
      · cases h
      · rename_i hc
        cases h
        refine ⟨hn, hu, fun w hw => hb.mono hw, fun m hm => ?_⟩
        obtain ⟨threads', m', hs', hm'⟩ :=
          Grammar.Bounded.exists_survivors_of_derives (G := grammar) rfl hm
        cases hs.symm.trans hs'
        cases hc.symm.trans hm'
    · rename_i c rest hu
      cases h
      obtain ⟨u, rfl⟩ := ht
      refine ⟨hn, ⟨c, rest, hu⟩, rfl, ?_, rfl⟩
      simp

theorem not_hasFault_of_ok {m : MethodDeclaration} {fault : Fault}
    (hr : ∀ token ∈ s.tokens, Readable token.toLexeme)
    (h : methodOfScan t s = .ok m) : ¬ HasFault t s fault := by
  obtain ⟨hu, hm⟩ := derives_of_methodOfScan h
  have hb : BeginsMethod (s.tokens.map (·.toLexeme)) := by
    refine .of_is (v := []) (fun l hl => ?_) ⟨m, by rwa [List.append_nil]⟩
    obtain ⟨token, ht, rfl⟩ := List.mem_map.mp hl
    exact hr token ht
  cases fault with
  | unexpectedToken token => exact fun hf => hf.not_beginsMethod hb
  | unexpectedCharacter before after last =>
    rintro ⟨-, ⟨c, rest, hc⟩, ha, -⟩
    exact absurd (ha.trans hu) (by simp [hc])
  | unexpectedEnd => exact fun hf => hf.2.2.2 m hm

theorem Scans.exists_place {p : Position} {unread : Text} {tokens : List Token}
    (h : Scans p t tokens unread) :
    ∀ token ∈ tokens, ∃ u v, t = u ++ (token.text ++ v) ∧ token.position = p.advance u := by
  induction h with
  | done => simp
  | stuck => simp
  | @layout _ x _ _ _ _ _ ih =>
    intro token hm
    obtain ⟨u, v, rfl, hp⟩ := ih token hm
    exact ⟨x ++ u, v, (List.append_assoc ..).symm, hp.trans (List.foldl_append ..).symm⟩
  | @token _ x rest _ _ _ _ _ ih =>
    intro token hm
    rcases List.mem_cons.mp hm with rfl | hm
    · exact ⟨[], rest, rfl, rfl⟩
    · obtain ⟨u, v, rfl, hp⟩ := ih token hm
      exact ⟨x ++ u, v, (List.append_assoc ..).symm, hp.trans (List.foldl_append ..).symm⟩

/-- The fault is reported at its token or its character, by line and column; the end of a text has
neither. -/
def Fault.IsPlaced (t : Text) : Fault → Prop
  | .unexpectedToken token =>
    ∃ before after, t = before ++ (token.text ++ after) ∧
      (unexpectedToken token).position? = some (placeAfter before)
  | .unexpectedCharacter before after last =>
    (unexpectedCharacter before after last).position? = some (placeAfter before)
  | .unexpectedEnd => unexpectedEnd.position? = none

theorem HasFault.isPlaced {fault : Fault} (hs : Scans .start t s.tokens s.unread)
    (h : HasFault t s fault) : fault.IsPlaced t := by
  cases fault with
  | unexpectedToken token =>
    obtain ⟨u, v, he, -⟩ := h
    obtain ⟨before, after, ht, hp⟩ := hs.exists_place token (by simp [he])
    rw [advance_start] at hp
    exact ⟨before, after, ht, congrArg some hp⟩
  | unexpectedCharacter before after last => exact congrArg some (advance_start before)
  | unexpectedEnd => rfl

/-- A text is refused with the one fault that it has: the first of its tokens after which no method
goes on, or else the character where no token can be read, or else its end. -/
theorem fault_spec (source : Text) :
    Scans .start (unescape source) (scan (unescape source)).tokens
        (scan (unescape source)).unread ∧
    (∀ e, parse source = .error e ↔
      e.text = source ∧ HasFault (unescape source) (scan (unescape source)) e.fault) ∧
    (∀ fault fault', HasFault (unescape source) (scan (unescape source)) fault →
      HasFault (unescape source) (scan (unescape source)) fault' → fault = fault') ∧
    ∀ fault, HasFault (unescape source) (scan (unescape source)) fault →
      fault.IsPlaced (unescape source) := by
  have hs := scans_scan (unescape source)
  refine ⟨hs, fun e => ⟨fun h => ?_, ?_⟩, fun _ _ => HasFault.unique, fun _ => HasFault.isPlaced hs⟩
  · refine ⟨text_of_parse_eq_error h, hasFault_of_methodOfScan hs.readable hs.exists_append ?_⟩
    simp only [parse] at h
    split at h
    · cases h
    · cases h
      assumption
  · rintro ⟨rfl, hf⟩
    cases h : methodOfScan (unescape e.text) (scan (unescape e.text)) with
    | ok m => exact absurd hf (not_hasFault_of_ok hs.readable h)
    | error fault =>
      have := hasFault_of_methodOfScan hs.readable hs.exists_append h
      simp only [parse, h, this.unique hf]

end MemberAccess.Java
