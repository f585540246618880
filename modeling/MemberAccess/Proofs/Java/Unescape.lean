import Mathlib.Algebra.Group.Nat.Even
import Mathlib.Data.List.DropRight
import MemberAccess.Proofs.Java.Escape
import MemberAccess.Proofs.Java.Escape.Form
import MemberAccess.Proofs.Text.Pattern

/-!
# Escapes are replaced in a single pass

A backslash of the given text begins an escape if an even number of backslashes stands directly
before it and letters `u` and four hexadecimal digits come after it. What an escape stands for takes
no part in another one. A substitution by a pattern that looks back for one character only, and
takes backslashes in pairs, comes to the same.
-/

namespace MemberAccess.Java

namespace Escape

def isBackslash (c : CodePoint) : Bool := c == '\\'

/-- The number of backslashes directly before a place, where `before` is all the text before it. -/
def backslashes (before : Text) : Nat := (before.rtakeWhile isBackslash).length

def BeginsWithEscape (t : Text) : Prop := ∃ e code r, t = e ++ r ∧ IsEscape e code

/-- Read from the left, `after` becomes the last text: each escape that begins in the text as it was
given becomes its character, and all other characters stay. -/
inductive Replaced : (before after : Text) → Text → Prop where
  | done {before : Text} : Replaced before [] []
  | escape {before e rest out : Text} {code : Nat} :
    Even (backslashes before) → IsEscape e code → Replaced (before ++ e) rest out →
    Replaced before (e ++ rest) (CodePoint.ofNat code :: out)
  | copy {before rest out : Text} {c : CodePoint} :
    ¬ (Even (backslashes before) ∧ BeginsWithEscape (c :: rest)) →
    Replaced (before ++ [c]) rest out → Replaced before (c :: rest) (c :: out)

variable {before rest out t e x : Text} {c : CodePoint} {code k : Nat}

theorem backslashes_append_of_ne (hc : c ≠ '\\') (before : Text) :
    backslashes (before ++ [c]) = 0 := by
  rw [backslashes, List.rtakeWhile_concat_neg _ _ _ (by simpa [isBackslash] using hc)]
  rfl

theorem backslashes_append_backslash (before : Text) :
    backslashes (before ++ [CodePoint.ofChar '\\']) = backslashes before + 1 := by
  rw [backslashes, List.rtakeWhile_concat_pos _ _ _ (by decide), List.length_append]
  rfl

theorem backslashes_append_replicate (before : Text) (n : Nat) :
    backslashes (before ++ List.replicate n (CodePoint.ofChar '\\')) = backslashes before + n := by
  induction n with
  | zero => simp
  | succ n ih =>
    rw [List.replicate_succ', ← List.append_assoc, backslashes_append_backslash, ih]
    rfl

theorem ne_backslash_of_isHexDigit {n : Nat} (h : IsHexDigit c n) : c ≠ '\\' := by
  rintro rfl
  have hnone : digit? '\\' = none := by decide
  exact not_isHexDigit hnone n h

theorem IsEscape.exists_cons (h : IsEscape e code) : ∃ x, e = CodePoint.ofChar '\\' :: x := by
  cases h
  exact ⟨_, rfl⟩

theorem BeginsWithEscape.eq_backslash (h : BeginsWithEscape (c :: rest)) : c = '\\' := by
  obtain ⟨e, code, r, he, h⟩ := h
  obtain ⟨x, rfl⟩ := h.exists_cons
  exact (List.cons_eq_cons.mp he).1

/-- A backslash after a backslash begins no escape with it. -/
theorem not_beginsWithEscape_pair : ¬ BeginsWithEscape ('\\' :: '\\' :: rest) := by
  rintro ⟨e, code, r, he, h⟩
  cases h with
  | intro hlen hd =>
    have := (List.cons_eq_cons.mp (List.cons_eq_cons.mp he).2).1
    exact absurd this (by decide)

/-- An escape ends with a digit. -/
theorem IsEscape.backslashes_append (h : IsEscape e code) (before : Text) :
    backslashes (before ++ e) = 0 := by
  cases h with
  | @intro k digits values hlen hd =>
    rcases List.eq_nil_or_concat digits with rfl | ⟨y, d, rfl⟩
    · cases hlen
    · obtain ⟨n, hn⟩ := exists_isHexDigit hd d (by simp)
      rw [← List.cons_append, ← List.append_assoc, List.concat_eq_append, ← List.append_assoc]
      exact backslashes_append_of_ne (ne_backslash_of_isHexDigit hn) _

/-- The characters of an escape that has been replaced are passed over. -/
theorem replaceFrom_append (x rest : Text) :
    replaceFrom x.length false (x ++ rest) = replaceFrom 0 false rest := by
  induction x with
  | nil => rfl
  | cons c x ih => rw [List.length_cons, List.cons_append, replaceFrom, ih]

theorem replaceFrom_escape (h : IsEscape e code) (rest : Text) :
    replaceFrom 0 false (e ++ rest) = CodePoint.ofNat code :: replaceFrom 0 false rest := by
  obtain ⟨x, rfl⟩ := h.exists_cons
  have hb : body? (x ++ rest) = some (x.length, CodePoint.ofNat code) :=
    body?_eq_some_iff.mpr ⟨x, rest, code, rfl, rfl, h, rfl⟩
  rw [List.cons_append, replaceFrom]
  simp only [hb, if_true, Bool.false_eq_true, if_false, replaceFrom_append]

theorem replaceFrom_odd (rest : Text) :
    replaceFrom 0 true ('\\' :: rest) = CodePoint.ofChar '\\' :: replaceFrom 0 false rest := by
  rw [replaceFrom]
  simp only [if_true]

theorem replaceFrom_even (h : ¬ BeginsWithEscape ('\\' :: rest)) :
    replaceFrom 0 false ('\\' :: rest) = CodePoint.ofChar '\\' :: replaceFrom 0 true rest := by
  have hb : body? rest = none := by
    rw [Option.eq_none_iff_forall_not_mem]
    rintro ⟨n, d⟩ hn
    obtain ⟨x, r, code, rfl, -, he, -⟩ := body?_eq_some_iff.mp hn
    exact h ⟨_, code, r, rfl, he⟩
  rw [replaceFrom]
  simp only [hb, if_true, Bool.false_eq_true, if_false]

/-- Whether an odd number of backslashes stands directly before a place. -/
def isOdd (before : Text) : Bool := !decide (Even (backslashes before))

theorem isOdd_append_backslash (before : Text) :
    isOdd (before ++ [CodePoint.ofChar '\\']) = !isOdd before := by
  rw [isOdd, isOdd, backslashes_append_backslash]
  simp only [Nat.even_add_one, decide_not]

theorem Replaced.replaceFrom_eq (h : Replaced before t out) :
    replaceFrom 0 (isOdd before) t = out := by
  induction h with
  | done => rfl
  | @escape before e rest out code heven he _ ih =>
    have hnext : isOdd (before ++ e) = false := by simp [isOdd, he.backslashes_append]
    have hodd : isOdd before = false := by simp [isOdd, heven]
    rw [hnext] at ih
    rw [hodd, replaceFrom_escape he, ih]
  | @copy before rest out c hnot _ ih =>
    by_cases hc : c = '\\'
    · subst hc
      rw [isOdd_append_backslash] at ih
      cases hodd : isOdd before with
      | true =>
        rw [hodd] at ih
        rw [replaceFrom_odd]
        exact congrArg _ ih
      | false =>
        rw [hodd] at ih
        have heven : Even (backslashes before) := by simpa [isOdd] using hodd
        rw [replaceFrom_even fun h => hnot ⟨heven, h⟩]
        exact congrArg _ ih
    · have hnext : isOdd (before ++ [c]) = false := by simp [isOdd, backslashes_append_of_ne hc]
      rw [hnext] at ih
      rw [replaceFrom_of_ne hc, ih]

theorem exists_replaced (before t : Text) : ∃ out, Replaced before t out := by
  induction hn : t.length using Nat.strongRecOn generalizing before t with
  | _ n ih =>
    by_cases h : Even (backslashes before) ∧ BeginsWithEscape t
    · obtain ⟨heven, e, code, r, rfl, he⟩ := h
      obtain ⟨x, rfl⟩ := he.exists_cons
      have hlt : r.length < n := by
        simp at hn
        omega
      obtain ⟨out, hout⟩ := ih r.length hlt (before ++ CodePoint.ofChar '\\' :: x) r rfl
      exact ⟨_, .escape heven he hout⟩
    · cases t with
      | nil => exact ⟨[], .done⟩
      | cons c rest =>
        obtain ⟨out, hout⟩ := ih rest.length (by simp at hn; omega) (before ++ [c]) rest rfl
        exact ⟨_, .copy h hout⟩

theorem replaceFrom_eq_iff : replaceFrom 0 (isOdd before) t = out ↔ Replaced before t out := by
  constructor
  · rintro rfl
    obtain ⟨out, hout⟩ := exists_replaced before t
    exact hout.replaceFrom_eq ▸ hout
  · exact Replaced.replaceFrom_eq

theorem unescape_eq_iff : unescape t = out ↔ Replaced [] t out := by
  have hbefore : isOdd [] = false := by decide
  rw [← replaceFrom_eq_iff, hbefore]
  rfl

/-- Only the backslashes directly before matter. -/
theorem Replaced.of_backslashes (hb : backslashes before = 0) (h : Replaced [] t out) :
    Replaced before t out := by
  have hodd : isOdd before = isOdd [] := by
    rw [isOdd, isOdd, hb]
    rfl
  rw [← replaceFrom_eq_iff] at h ⊢
  rwa [hodd]

/-- What stands on one side of a character that is in no escape is replaced without regard to the
other side. -/
theorem Replaced.append_cons (hc : IsOutside c) {r out' : Text}
    (h : Replaced before t out) (hr : Replaced [] r out') :
    Replaced before (t ++ c :: r) (out ++ c :: out') := by
  induction h with
  | done =>
    have hb := hc.ne_backslash
    exact .copy (fun h => hb h.2.eq_backslash) (hr.of_backslashes (backslashes_append_of_ne hb _))
  | escape heven he _ ih =>
    rw [List.append_assoc]
    exact .escape heven he ih
  | @copy before rest out d hnot _ ih =>
    refine .copy (fun ⟨heven, e, code, s, hs, he⟩ => hnot ⟨heven, ?_⟩) ih
    obtain ⟨y, hy, -⟩ := he.exists_of_append (y := d :: rest) hc hs.symm
    exact ⟨e, code, y, hy, he⟩

theorem unescape_append_cons (hc : IsOutside c) (t r : Text) :
    unescape (t ++ c :: r) = unescape t ++ c :: unescape r :=
  unescape_eq_iff.mpr ((unescape_eq_iff.mp rfl).append_cons hc (unescape_eq_iff.mp rfl))

def isHexDigit (c : CodePoint) : Bool := (Text.ofString "0123456789abcdefABCDEF").contains c

/-- Where no backslash stands before: pairs of backslashes, and an escape. -/
def pattern : List Piece :=
  [.notAfter isBackslash, ((Piece.one isBackslash).times 2).many, .one isBackslash,
   (Piece.one isMarker).some, (Piece.one isHexDigit).times 4]

/-- The pairs stay, and the escape becomes the character with the number that its digits write. -/
def replacement : List Text → Text
  | [_, pairs, _, _, digits] => pairs ++ [CodePoint.ofNat ((number? digits).getD 0)]
  | _ => []

theorem isHexDigit_iff : isHexDigit c = true ↔ ∃ n, IsHexDigit c n := by
  rw [isHexDigit, List.contains_iff_mem]
  constructor
  · intro h
    have hall : ∀ d ∈ Text.ofString "0123456789abcdefABCDEF", ∃ n < 16, IsHexDigit d n := by decide
    obtain ⟨n, -, hn⟩ := hall c h
    exact ⟨n, hn⟩
  · have hlower : Text.ofString "0123456789abcdef" ⊆ Text.ofString "0123456789abcdefABCDEF" := by
      decide
    have hupper : Text.ofString "0123456789ABCDEF" ⊆ Text.ofString "0123456789abcdefABCDEF" := by
      decide
    rintro ⟨n, h | h⟩
    · exact hlower (List.mem_of_getElem? h)
    · exact hupper (List.mem_of_getElem? h)

theorem exists_values {digits : Text} (h : ∀ d ∈ digits, isHexDigit d = true) :
    ∃ values, List.Forall₂ IsHexDigit digits values := by
  induction digits with
  | nil => exact ⟨[], .nil⟩
  | cons d digits ih =>
    rw [List.forall_mem_cons] at h
    obtain ⟨n, hn⟩ := isHexDigit_iff.mp h.1
    obtain ⟨values, hv⟩ := ih h.2
    exact ⟨n :: values, .cons hn hv⟩

theorem backslashes_eq_zero_iff :
    backslashes before = 0 ↔ ¬ before.getLast?.any isBackslash = true := by
  rcases List.eq_nil_or_concat before with rfl | ⟨y, d, rfl⟩
  · simp [backslashes]
  · rw [List.concat_eq_append, List.getLast?_concat, Option.any_some]
    by_cases hd : d = '\\'
    · subst hd
      have : isBackslash '\\' = true := by decide
      simp [backslashes_append_backslash, this]
    · have : isBackslash d = false := by simpa [isBackslash] using hd
      simp [backslashes_append_of_ne hd, this]

theorem isRun_pair : ((Piece.one isBackslash).times 2).IsRun isBackslash 2 :=
  Piece.IsRun.times (.one isBackslash) 2

theorem isRun_digits : ((Piece.one isHexDigit).times 4).IsRun isHexDigit 4 :=
  Piece.IsRun.times (.one isHexDigit) 4

theorem eq_of_isBackslash (h : isBackslash c = true) : c = '\\' := eq_of_beq h

theorem eq_of_isMarker (h : isMarker c = true) : c = 'u' := eq_of_beq h

/-- A match is pairs of backslashes and an escape. -/
theorem of_mem_choices {lengths : List Nat} (h : lengths ∈ Pattern.choices pattern before t) :
    backslashes before = 0 ∧ ∃ k e code r,
      t = List.replicate (k * 2) (CodePoint.ofChar '\\') ++ (e ++ r) ∧ IsEscape e code ∧
      lengths.sum = k * 2 + e.length ∧ replacement (lengths.splitLengths t) =
        List.replicate (k * 2) (CodePoint.ofChar '\\') ++ [CodePoint.ofNat code] := by
  simp only [pattern, Pattern.mem_choices_cons, Pattern.mem_choices_nil] at h
  obtain ⟨_, h₀, _, ⟨_, h₁, _, ⟨_, h₂, _, ⟨_, h₃, _, ⟨_, h₄, _, rfl, rfl⟩, rfl⟩, rfl⟩, rfl⟩,
    rfl⟩ := h
  obtain ⟨rfl, hbefore⟩ := Piece.mem_notAfter.mp h₀
  rw [List.drop_zero] at h₁ h₂ h₃ h₄
  obtain ⟨k, rfl, hk⟩ := (isRun_pair.mem_many (by decide)).mp h₁
  obtain ⟨t, rfl⟩ := hk.exists_replicate fun _ => eq_of_isBackslash
  rw [List.drop_left' List.length_replicate] at h₂ h₃ h₄
  obtain ⟨rfl, hb⟩ := (Piece.IsRun.one isBackslash).mem_iff.mp h₂
  obtain ⟨t, rfl⟩ := hb.exists_replicate fun _ => eq_of_isBackslash
  rw [List.drop_left' List.length_replicate] at h₃ h₄
  obtain ⟨m, rfl, hm⟩ := ((Piece.IsRun.one isMarker).mem_some (by decide)).mp h₃
  obtain ⟨t, rfl⟩ := hm.exists_replicate fun _ => eq_of_isMarker
  rw [List.drop_left' List.length_replicate] at h₄
  obtain ⟨rfl, digits, r, rfl, hlen, hd⟩ := isRun_digits.mem_iff.mp h₄
  obtain ⟨values, hv⟩ := exists_values hd
  have hnumber : number? digits = some (Nat.ofDigits 16 values.reverse) :=
    number?_eq_some_iff.mpr ⟨digits, [], values, by simp, hlen, hv, rfl⟩
  refine ⟨backslashes_eq_zero_iff.mpr hbefore, k, _, _, r, ?_, .intro (k := m) hlen hv, ?_, ?_⟩
  · simp
  · simp [hlen]
    omega
  · simp [List.splitLengths_cons, replacement, hlen, hnumber]

theorem choices_ne_nil {r : Text} (hb : backslashes before = 0) (he : IsEscape e code) (k : Nat) :
    Pattern.choices pattern before
      (List.replicate (k * 2) (CodePoint.ofChar '\\') ++ (e ++ r)) ≠ [] := by
  cases he with
  | @intro m digits values hlen hd =>
    have hbackslash : isBackslash '\\' = true := by decide
    have hmarker : isMarker 'u' = true := by decide
    refine List.ne_nil_of_mem (show [0, k * 2, 1, m + 1, 4] ∈ _ from ?_)
    simp only [pattern, Pattern.mem_choices_cons, Pattern.mem_choices_nil]
    refine ⟨0, Piece.mem_notAfter.mpr ⟨rfl, backslashes_eq_zero_iff.mp hb⟩, _,
      ⟨k * 2, (isRun_pair.mem_many (by decide)).mpr ⟨k, rfl, ?_⟩, _,
      ⟨1, (Piece.IsRun.one isBackslash).mem_iff.mpr ⟨rfl, ?_⟩, _,
      ⟨m + 1, ((Piece.IsRun.one isMarker).mem_some (by decide)).mpr ⟨m, by simp, ?_⟩, _,
      ⟨4, isRun_digits.mem_iff.mpr ⟨rfl, ?_⟩, [], rfl, rfl⟩, rfl⟩, rfl⟩, rfl⟩, rfl⟩
    · exact beginsWithRun_replicate hbackslash _
    · rw [List.drop_zero, List.drop_left' List.length_replicate]
      exact beginsWithRun_replicate hbackslash 1
    · rw [List.drop_zero, List.drop_left' List.length_replicate, List.cons_append,
        List.drop_succ_cons, List.drop_zero, List.append_assoc, Nat.mul_one]
      exact beginsWithRun_replicate hmarker _
    · rw [List.drop_zero, List.drop_left' List.length_replicate, List.cons_append,
        List.drop_succ_cons, List.drop_zero, List.append_assoc,
        List.drop_left' List.length_replicate]
      exact ⟨digits, r, rfl, hlen, fun d hm => isHexDigit_iff.mpr (exists_isHexDigit hd d hm)⟩

/-- Backslashes before more of them are copied. -/
theorem Replaced.replicate (n : Nat) {x : Text}
    (h : Replaced (before ++ List.replicate n (CodePoint.ofChar '\\'))
      (CodePoint.ofChar '\\' :: x) out) :
    Replaced before (List.replicate n (CodePoint.ofChar '\\') ++ CodePoint.ofChar '\\' :: x)
      (List.replicate n (CodePoint.ofChar '\\') ++ out) := by
  induction n generalizing before with
  | zero => simpa using h
  | succ n ih =>
    have hpair : ¬ BeginsWithEscape (CodePoint.ofChar '\\' ::
        (List.replicate n (CodePoint.ofChar '\\') ++ CodePoint.ofChar '\\' :: x)) := by
      cases n with
      | zero => exact not_beginsWithEscape_pair
      | succ n => exact not_beginsWithEscape_pair
    refine .copy (fun hb => hpair hb.2) (ih ?_)
    rwa [List.append_assoc]

/-- Pairs of backslashes and then an escape. -/
def IsPending (t : Text) : Prop :=
  ∃ k e code r, t = List.replicate (k * 2) (CodePoint.ofChar '\\') ++ (e ++ r) ∧ IsEscape e code

/-- Where no match has been left behind that began with the backslashes before, replacing matches is
the single pass. -/
theorem replaced_substituteFrom (before t : Text) (h : backslashes before = 0 ∨
    ¬ IsPending (List.replicate (backslashes before) (CodePoint.ofChar '\\') ++ t)) :
    Replaced before t (Pattern.substituteFrom pattern replacement before 0 t) := by
  induction hn : t.length using Nat.strongRecOn generalizing before t with
  | _ n ih =>
    cases hc : (Pattern.choices pattern before t).head? with
    | some lengths =>
      obtain ⟨hb, k, e, code, r, rfl, he, hsum, hreplacement⟩ :=
        of_mem_choices (List.mem_of_mem_head? hc)
      obtain ⟨x, rfl⟩ := he.exists_cons
      rw [← List.append_assoc] at hc hreplacement ⊢
      -- The pairs of the match are copied, and what comes after it has no backslash before it.
      rw [Pattern.substituteFrom_match (by simp) hc (by simp [hsum]), hreplacement,
        List.append_assoc, List.append_assoc, List.singleton_append]
      refine .replicate (k * 2) (.escape ?_ he ?_)
      · rw [backslashes_append_replicate, hb, Nat.zero_add]
        exact ⟨k, by omega⟩
      · rw [List.append_assoc]
        refine ih r.length (by simp at hn; omega) _ r (.inl ?_) rfl
        rw [← List.append_assoc]
        exact he.backslashes_append _
    | none =>
      rw [List.head?_eq_none_iff] at hc
      -- No match begins here either, so the backslashes before are still part of none.
      have hpending :
          ¬ IsPending (List.replicate (backslashes before) (CodePoint.ofChar '\\') ++ t) := by
        rcases h with h | h
        · rw [h]
          rintro ⟨k, e, code, r, rfl, he⟩
          exact choices_ne_nil h he k hc
        · exact h
      cases t with
      | nil => exact .done
      | cons c rest =>
        rw [Pattern.substituteFrom_no_match hc]
        refine .copy ?_ (ih rest.length (by simp at hn; omega) _ rest ?_ rfl)
        · rintro ⟨⟨k, hk⟩, e, code, r, he, hescape⟩
          exact hpending ⟨k, e, code, r, by rw [hk, he, Nat.mul_two], hescape⟩
        · by_cases hbackslash : c = '\\'
          · subst hbackslash
            rw [backslashes_append_backslash, List.replicate_succ', List.append_assoc,
              List.singleton_append]
            exact .inr hpending
          · exact .inl (backslashes_append_of_ne hbackslash before)

theorem unescape_eq_substitute (t : Text) :
    unescape t = Pattern.substitute pattern replacement t :=
  unescape_eq_iff.mpr (replaced_substituteFrom [] t (.inl rfl))

/-- Every character of the basic plane is written as an escape, and every other one as it is. -/
inductive InEscapes : (written plain : Text) → Prop where
  | nil : InEscapes [] []
  | escape {written plain : Text} {c : CodePoint} {e : Text} :
    IsEscape e c.toNat → InEscapes written plain → InEscapes (e ++ written) (c :: plain)
  | beyond {written plain : Text} {c : CodePoint} :
    0xFFFF < c.toNat → InEscapes written plain → InEscapes (c :: written) (c :: plain)

theorem ne_backslash_of_lt (h : 0xFFFF < c.toNat) : c ≠ '\\' := by
  rintro rfl
  exact absurd h (by decide)

/-- The escapes of a text stand for it. No backslash stands before any of them, for none is the end
of an escape or beyond the basic plane. -/
theorem InEscapes.replaced {written plain : Text} (h : InEscapes written plain)
    (hb : backslashes before = 0) : Replaced before written plain := by
  induction h generalizing before with
  | nil => exact .done
  | @escape written plain c e he _ ih =>
    have hc : CodePoint.ofNat c.toNat = c := by simp [CodePoint.ofNat, c.isLt]
    have hnext := Replaced.escape (hb ▸ Even.zero) he (ih (he.backslashes_append before))
    rwa [hc] at hnext
  | beyond hc _ ih =>
    have hne := ne_backslash_of_lt hc
    exact .copy (fun hb => hne hb.2.eq_backslash) (ih (backslashes_append_of_ne hne before))

/-- Escapes are replaced in a single pass. So a text comes back from its escapes, whichever of the
letters `u` and digits they have. -/
theorem unescape_single_pass (t out : Text) :
    (unescape t = out ↔ Replaced [] t out) ∧
    unescape t = Pattern.substitute pattern replacement t ∧
    ∀ plain, InEscapes t plain → unescape t = plain :=
  ⟨unescape_eq_iff, unescape_eq_substitute t, fun _ h => unescape_eq_iff.mpr (h.replaced rfl)⟩

/-- The backslash that an escape stands for begins no escape. -/
theorem unescape_single_pass_backslash :
    Replaced [] "\\u005cu0041" "\\u0041" ∧
    InEscapes "\\uu005C\\u0041" "\\A" ∧ unescape "\\uu005C\\u0041" = Text.ofString "\\A" := by
  have hbackslash : IsEscape "\\uu005C" 0x5C :=
    @IsEscape.intro 1 "005C" [0, 0, 5, 12] rfl
      (.cons (by decide) (.cons (by decide) (.cons (by decide) (.cons (by decide) .nil))))
  have hletter : IsEscape "\\u0041" 0x41 :=
    @IsEscape.intro 0 "0041" [0, 0, 4, 1] rfl
      (.cons (by decide) (.cons (by decide) (.cons (by decide) (.cons (by decide) .nil))))
  have hin : InEscapes "\\uu005C\\u0041" "\\A" :=
    .escape (c := CodePoint.ofChar '\\') hbackslash
      (.escape (c := CodePoint.ofChar 'A') hletter .nil)
  exact ⟨(unescape_single_pass _ _).1.mp (by decide), hin, (unescape_single_pass _ []).2.2 _ hin⟩

end Escape

end MemberAccess.Java
