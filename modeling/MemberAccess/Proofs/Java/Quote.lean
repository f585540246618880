import MemberAccess.Proofs.Java.Requoted
import MemberAccess.Proofs.Java.Unescape

/-!
# Quoted names

A quoted name comes through the replacement of escapes as it is, whatever stands around it. It is
read as one string literal if the name holds no line feed, and else nothing is read. The name can be
read off the literal.
-/

namespace MemberAccess.Java

open Lexer

/-- No line feed stands before the closing mark. -/
theorem Lexer.Closes.lineFeed_notMem {mark : Char} {u : Text} (hm : CodePoint.ofChar mark ≠ '\n')
    (h : Closes mark u) : CodePoint.ofChar '\n' ∉ u := by
  induction h with
  | mark => simpa using hm.symm
  | plain _ hn _ _ ih => simp [ih, hn.symm]
  | escaped _ hn _ ih =>
    have hb : CodePoint.ofChar '\n' ≠ '\\' := by decide
    simp [ih, hb, hn.symm]

namespace TypeName
variable {name x t r : Text}

/-- The text with `x` in place of every `c`. -/
def replaceAll (c : CodePoint) (x t : Text) : Text := t.flatMap fun d => if d = c then x else [d]

/-- Backslashes are replaced before marks, so that those before marks stay single. -/
theorem quote_eq_replaceAll (name : Text) :
    quote name = "\"" ++ replaceAll '"' "\\\"" (replaceAll '\\' "\\\\" name) ++ "\"" := by
  have hchar : ∀ c, replaceAll '"' "\\\"" (if c = CodePoint.ofChar '\\' then "\\\\" else [c]) =
      quotedChar c := by
    intro c
    by_cases hb : c = '\\'
    · subst hb
      rfl
    · by_cases hm : c = '"'
      · subst hm
        rfl
      · simp [quotedChar, replaceAll, hb, hm]
  rw [quote, replaceAll, replaceAll, List.flatMap_assoc]
  exact congrArg (Text.ofString "\"" ++ · ++ Text.ofString "\"")
    (List.flatMap_congr fun c _ => (hchar c).symm)

/-- Undoes the two escapes up to the closing mark at the end. -/
def unquotedRest? : Text → Option Text
  | [] => none
  | c :: rest =>
    if c = '"' then if rest = [] then some [] else none
    else if c = '\\' then
      match rest with
      | [] => none
      | d :: rest => if d = '\\' || d = '"' then (unquotedRest? rest).map (d :: ·) else none
    else (unquotedRest? rest).map (c :: ·)

/-- The name that is quoted in a literal. -/
def unquote? (t : Text) : Option Text :=
  if Text.beginsWith (· == '"') t then unquotedRest? (t.drop 1) else none

theorem unquotedRest?_eq_some_iff :
    unquotedRest? t = some name ↔ t = name.flatMap quotedChar ++ [CodePoint.ofChar '"'] := by
  constructor
  · intro h
    fun_induction unquotedRest? t generalizing name with
    | case1 | case3 | case4 | case6 => cases h
    | case2 =>
      obtain rfl := Option.some.inj h
      rfl
    | case5 d rest hd _ ih =>
      obtain ⟨name, hname, rfl⟩ := Option.map_eq_some_iff.mp h
      rw [List.flatMap_cons, quotedChar, if_pos hd, ih hname]
      rfl
    | case7 c rest hm hb ih =>
      obtain ⟨name, hname, rfl⟩ := Option.map_eq_some_iff.mp h
      rw [List.flatMap_cons, quotedChar, if_neg (by simp [hm, hb]), ih hname]
      rfl
  · rintro rfl
    induction name with
    | nil => rfl
    | cons c name ih =>
      rw [List.flatMap_cons, quotedChar, List.append_assoc]
      split
      · rename_i hc
        have hb : CodePoint.ofChar '\\' ≠ '"' := by decide
        rw [List.cons_append, List.singleton_append, unquotedRest?.eq_def]
        simp only [if_neg hb, if_true, if_pos hc, ih, Option.map_some]
      · rename_i hc
        simp only [Bool.or_eq_true, decide_eq_true_eq, not_or] at hc
        rw [List.singleton_append, unquotedRest?.eq_def]
        simp only [if_neg hc.1, if_neg hc.2, ih, Option.map_some]

theorem unquote?_eq_some_iff : unquote? x = some name ↔ x = quote name := by
  constructor
  · intro h
    rw [unquote?, Option.ite_none_right_eq_some] at h
    obtain ⟨c, rest, rfl, hc⟩ := Text.beginsWith_iff.mp h.1
    obtain rfl : c = '"' := eq_of_beq hc
    rw [List.drop_succ_cons, List.drop_zero, unquotedRest?_eq_some_iff] at h
    exact congrArg (CodePoint.ofChar '"' :: ·) h.2
  · rintro rfl
    exact unquotedRest?_eq_some_iff.mpr rfl

theorem quote_inj {other : Text} : quote other = quote name ↔ other = name := by
  rw [← unquote?_eq_some_iff, unquote?_eq_some_iff.mpr rfl, Option.some.injEq]

theorem unescape_append_quote (a name b : Text) :
    unescape (a ++ quote name ++ b) = unescape a ++ quote name ++ unescape b := by
  have hmark : Escape.IsOutside '"' := Escape.isOutside (by decide) (by decide) (by decide)
  obtain ⟨y, hy⟩ : ∃ y, quote name = CodePoint.ofChar '"' :: y := ⟨_, rfl⟩
  have hquote := (isDisguise_quote name).balanced.unescape_append b
  rw [hy, List.cons_append] at hquote
  rw [hy]
  calc unescape (a ++ CodePoint.ofChar '"' :: y ++ b)
      = unescape (a ++ CodePoint.ofChar '"' :: (y ++ b)) := by rw [List.append_assoc]; rfl
    _ = unescape a ++ CodePoint.ofChar '"' :: unescape (y ++ b) :=
      Escape.unescape_append_cons hmark a (y ++ b)
    _ = unescape a ++ unescape (CodePoint.ofChar '"' :: (y ++ b)) :=
      congrArg _ (Escape.unescape_append_cons hmark [] (y ++ b)).symm
    _ = unescape a ++ CodePoint.ofChar '"' :: y ++ unescape b := by
      rw [hquote, List.append_assoc]

theorem mem_flatMap_quotedChar {c : CodePoint} (h : c ∈ name) : c ∈ name.flatMap quotedChar := by
  refine List.mem_flatMap.mpr ⟨c, h, ?_⟩
  rw [quotedChar]
  split <;> simp

theorem lexeme?_quote_eq_none_iff (name r : Text) :
    lexeme? (quote name ++ r) = none ↔ CodePoint.ofChar '\n' ∈ name := by
  constructor
  · intro h
    by_contra hn
    rw [lexeme?_string (isQuoted_quote hn)] at h
    cases h
  · intro h
    rcases (isDisguise_quote name).isQuoted_or_stuck with ⟨u, hu, hcloses⟩ | hstuck
    · obtain ⟨-, rfl⟩ := List.cons_eq_cons.mp hu
      refine absurd (List.mem_append_left _ ?_) (hcloses.lineFeed_notMem (by decide))
      exact mem_flatMap_quotedChar h
    · exact hstuck r

theorem head?_from_quote_iff (name r : Text) (p : Position) :
    (Scan.from_ p 0 (quote name ++ r)).tokens.head? = some ⟨⟨.string, quote name⟩, p⟩ ↔
      CodePoint.ofChar '\n' ∉ name := by
  constructor
  · intro h hn
    have hne : quote name ++ r ≠ [] := List.cons_ne_nil (CodePoint.ofChar '"') _
    have hstuck := Scans.stuck (p := p) hne ((lexeme?_quote_eq_none_iff name r).mpr hn)
    rw [hstuck.from_eq] at h
    cases h
  · intro h
    rw [Scan.from_token (lexeme?_string (isQuoted_quote h) r), List.head?_cons]

/-- A quoted name passes through the replacement of escapes, is read as one string literal if it
holds no line feed, and is known from that literal. -/
theorem quote_read_back (name a b : Text) (p : Position) :
    unescape (a ++ quote name ++ b) = unescape a ++ quote name ++ unescape b ∧
    (∀ r, (Scan.from_ p 0 (quote name ++ r)).tokens.head? = some ⟨⟨.string, quote name⟩, p⟩ ↔
      CodePoint.ofChar '\n' ∉ name) ∧
    (∀ r, lexeme? (quote name ++ r) = none ↔ CodePoint.ofChar '\n' ∈ name) ∧
    (∀ x, unquote? x = some name ↔ x = quote name) ∧
    ∀ other, quote other = quote name ↔ other = name :=
  ⟨unescape_append_quote a name b, fun r => head?_from_quote_iff name r p,
    lexeme?_quote_eq_none_iff name, fun _ => unquote?_eq_some_iff, fun _ => quote_inj⟩

end TypeName

end MemberAccess.Java
