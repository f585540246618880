import MemberAccess.Proofs.Java.Escape
import MemberAccess.Proofs.Java.Escape.Form
import MemberAccess.Proofs.Java.Method
import MemberAccess.Proofs.Java.Spelling
import MemberAccess.Proofs.Text.Indent

/-!
# Padded texts

Spaces and tabs put in after line boundaries do not change what is read, unless they are put into a
literal. White space and comments take them in, and no other lexeme holds a line boundary.
-/

namespace MemberAccess.Java

open Lexer Text

def isMargin (c : CodePoint) : Bool := c == ' ' || c == '\t'

theorem isSpace_of_isMargin {c : CodePoint} (h : isMargin c = true) : isSpace c = true := by
  simp only [isMargin, isSpace, Bool.or_eq_true] at h ⊢
  rcases h with h | h
  · simp [h]
  · simp [h]

theorem ne_of_isMargin {c d : CodePoint} (h : isMargin c = true) (hd : isMargin d = false) :
    c ≠ d := by
  rintro rfl
  rw [hd] at h
  cases h

theorem mem_separators_of_isLineBoundary {c : CodePoint} (h : c.isLineBoundary = true) :
    c ∈ separators := by
  have hcodes : ∀ n ∈ [0x0A, 0x0B, 0x0C, 0x0D, 0x1C, 0x1D, 0x1E, 0x85, 0x2028, 0x2029],
      CodePoint.ofNat n ∈ separators := by decide
  simp only [CodePoint.isLineBoundary, CodePoint.inRanges, CodePoint.lineBoundaryRanges,
    List.any_cons, List.any_nil, Bool.or_false, Bool.or_eq_true, Bool.and_eq_true,
    decide_eq_true_eq] at h
  have hm : c.toNat ∈ [0x0A, 0x0B, 0x0C, 0x0D, 0x1C, 0x1D, 0x1E, 0x85, 0x2028, 0x2029] := by
    simp only [List.mem_cons, List.not_mem_nil, or_false]
    omega
  have hc : CodePoint.ofNat c.toNat = c := by simp [CodePoint.ofNat, c.isLt]
  exact hc ▸ hcodes _ hm

theorem eq_false_of_isLineBoundary {p : CodePoint → Bool} (hp : ∀ d ∈ separators, p d = false)
    {c : CodePoint} (h : c.isLineBoundary = true) : p c = false :=
  hp c (mem_separators_of_isLineBoundary h)

theorem not_isLineBoundary {p : CodePoint → Bool} (hp : ∀ d ∈ separators, p d = false)
    {c : CodePoint} (h : p c = true) : c.isLineBoundary = false := by
  rw [Bool.eq_false_iff]
  intro hc
  rw [eq_false_of_isLineBoundary hp hc] at h
  cases h

variable {t t' : Text} {b : Bool}

theorem beginsWith_of_padded {p : CodePoint → Bool} (h : Padded isMargin false t t') :
    beginsWith p t' = beginsWith p t := by
  cases h with
  | nil => rfl
  | keep => rfl

namespace Escape

theorem isOutside_of_isLineBoundary {c : CodePoint} (h : c.isLineBoundary = true) :
    IsOutside c := by
  refine isOutside ?_ (eq_false_of_isLineBoundary (by decide) h) ?_
  · rintro rfl
    exact absurd h (by decide)
  · have hd := eq_false_of_isLineBoundary (p := fun c => (digit? c).isSome) (by decide) h
    simpa using hd

theorem body?_of_padded (h : Padded isMargin false t t') : body? t' = body? t := by
  rcases h.eq_or_split with rfl | ⟨y, c, z, z', hc, rfl, rfl⟩
  · rfl
  · have hc := isOutside_of_isLineBoundary hc
    rw [body?_append_cons hc, body?_append_cons hc]

/-- No line boundary stands inside an escape. -/
theorem isLineBoundary_of_body? {n : Nat} {c : CodePoint} (h : body? t = some (n, c)) :
    ∀ d ∈ t.take n, d.isLineBoundary = false := by
  obtain ⟨x, r, code, rfl, rfl, hx, -⟩ := body?_eq_some_iff.mp h
  intro d hd
  rw [List.take_left] at hd
  rw [Bool.eq_false_iff]
  intro hb
  exact isOutside_of_isLineBoundary hb _ _ hx (List.mem_cons_of_mem _ hd)

/-- The escapes in a padded text are those of the text. -/
theorem padded_replaceFrom (h : Padded isMargin b t t') (inside : Nat) (isOdd : Bool)
    (hi : ∀ c ∈ t.take inside, c.isLineBoundary = false)
    (hb : b = true → inside = 0 ∧ isOdd = false) :
    Padded isMargin b (replaceFrom inside isOdd t) (replaceFrom inside isOdd t') := by
  induction h generalizing inside isOdd with
  | nil => exact .nil
  | @pad c t t' hc _ ih =>
    obtain ⟨rfl, rfl⟩ := hb rfl
    rw [replaceFrom_of_ne (ne_of_isMargin hc (by decide)) false t']
    exact .pad hc (ih 0 false (by simp) fun _ => ⟨rfl, rfl⟩)
  | @keep b c t t' h ih =>
    cases inside with
    | succ n =>
      have hc := hi c (by simp)
      rw [hc] at h ih
      exact (ih n false (fun d hd => hi d (by simp [hd])) (by simp)).of_false
    | zero =>
      by_cases hc : c = '\\'
      · subst hc
        have hs : CodePoint.isLineBoundary '\\' = false := by decide
        rw [hs] at h ih
        rw [replaceFrom, replaceFrom]
        simp only [if_true]
        cases isOdd with
        | true =>
          simp only [if_true]
          exact .keep (ih 0 false (by simp) (by simp)).of_false
        | false =>
          simp only [Bool.false_eq_true, if_false]
          rw [body?_of_padded h]
          split
          · rename_i n d hn
            exact .keep (ih n false (isLineBoundary_of_body? hn) (by simp)).of_false
          · exact .keep (ih 0 true (by simp) (by simp)).of_false
      · rw [replaceFrom_of_ne hc, replaceFrom_of_ne hc]
        exact .keep (ih 0 false (by simp) fun _ => ⟨rfl, rfl⟩)

end Escape

theorem padded_unescape (h : Padded isMargin b t t') :
    Padded isMargin b (unescape t) (unescape t') :=
  Escape.padded_replaceFrom h 0 false (by simp) fun _ => ⟨rfl, rfl⟩

theorem exists_of_padded_cons {c : CodePoint} (hc : isMargin c = false)
    (h : Padded isMargin b t (c :: t')) :
    ∃ u, t = c :: u ∧ Padded isMargin c.isLineBoundary u t' := by
  cases h with
  | pad hp _ =>
    rw [hc] at hp
    cases hp
  | keep h => exact ⟨_, rfl, h⟩

/-- A quoted literal is closed in a padded text only if it is in the text. -/
theorem closes_of_padded {mark : Char} (hm : isMargin mark = false) {u r : Text}
    (hu : Closes mark u) (h : Padded isMargin b t (u ++ r)) :
    ∃ v s, t = v ++ s ∧ Closes mark v := by
  induction hu generalizing b t with
  | mark =>
    obtain ⟨s, rfl, -⟩ := exists_of_padded_cons hm h
    exact ⟨_, s, rfl, .mark⟩
  | plain hc hl hb _ ih =>
    cases h with
    | pad _ h => exact ih h
    | keep h =>
      obtain ⟨v, s, rfl, hv⟩ := ih h
      exact ⟨_, s, rfl, .plain hc hl hb hv⟩
  | escaped hc hd _ ih =>
    obtain ⟨w, rfl, hw⟩ := exists_of_padded_cons (by decide) h
    have hs : CodePoint.isLineBoundary '\\' = false := by decide
    rw [hs] at hw
    cases hw with
    | keep h =>
      obtain ⟨v, s, rfl, hv⟩ := ih h
      exact ⟨_, s, rfl, .escaped hc hd hv⟩

theorem quoted?_of_padded {mark : Char} (hm : isMargin mark = false)
    (h : Padded isMargin false t t') (ht : quoted? mark t = none) : quoted? mark t' = none := by
  rw [Option.eq_none_iff_forall_not_mem]
  intro n hn
  rw [quoted?, Option.mem_def, Option.ite_none_right_eq_some, Option.map_eq_some_iff] at hn
  obtain ⟨hb, m, hm', -⟩ := hn
  obtain ⟨c, t', rfl, hc⟩ := beginsWith_iff.mp hb
  obtain rfl : c = mark := by simpa using hc
  obtain ⟨u, rfl, hp⟩ := exists_of_padded_cons hm h
  have hu := closes_of_closing? hm'
  rw [List.drop_succ_cons, List.drop_zero] at hu
  rw [← List.take_append_drop m t'] at hp
  obtain ⟨v, s, rfl, hv⟩ := closes_of_padded hm hu hp
  simp [quoted?, closing?_append hv] at ht

theorem commentClose_infix_of_padded (h : Padded isMargin b t t') (ht : commentClose <:+: t') :
    commentClose <:+: t := by
  induction h with
  | nil => exact ht
  | pad hc _ ih =>
    rw [List.infix_cons_iff, commentClose_prefix_iff] at ht
    have hstar := ne_of_isMargin hc (d := '*') (by decide)
    exact ih (ht.resolve_left (by simp [hstar]))
  | keep h ih =>
    rw [List.infix_cons_iff, commentClose_prefix_iff, Bool.and_eq_true, decide_eq_true_eq] at ht ⊢
    rcases ht with ⟨rfl, ht⟩ | ht
    · exact .inl ⟨rfl, (beginsWith_of_padded h).symm.trans ht⟩
    · exact .inr (ih ht)

/-- White space or a comment in a text is one in the padded text, with what is put in at its end. -/
theorem IsLayout.padded {x r : Text} (hx : IsLayout r x) (h : Padded isMargin false (x ++ r) t') :
    ∃ x' r', t' = x' ++ r' ∧ IsLayout r' x' ∧ Padded isMargin false r r' := by
  cases hx with
  | spaces hall =>
    obtain ⟨x', r', rfl, hx', hr⟩ := h.exists_of_append_any
    exact ⟨x', r', rfl, .spaces (hx'.all_of_all (fun _ => isSpace_of_isMargin) hall), hr⟩
  | @line x hn hend =>
    obtain ⟨_, rfl, hslash⟩ := h.exists_of_cons_false
    obtain ⟨u, rfl, hu⟩ := Padded.exists_of_cons_false hslash
    obtain ⟨x', r', rfl, hx', hr⟩ := hu.exists_of_append_any
    refine ⟨'/' :: '/' :: x', r', rfl, .line ?_ (by rwa [beginsWith_of_padded hr]), hr⟩
    have hall : x.all (· != '\n') = true := by
      simpa using fun c hc => ne_of_mem_of_not_mem hc hn
    have hall' := hx'.all_of_all (fun c hc => by simpa using ne_of_isMargin hc (by decide)) hall
    exact fun hm => absurd (List.all_eq_true.mp hall' _ hm) (by decide)
  | @block x hn =>
    rw [List.cons_append, List.cons_append, List.append_assoc] at h
    obtain ⟨_, rfl, hslash⟩ := h.exists_of_cons_false
    obtain ⟨_, rfl, hstar⟩ := Padded.exists_of_cons_false hslash
    obtain ⟨x', _, rfl, hx', hclose⟩ := hstar.exists_of_append_any
    obtain ⟨r', rfl, hr⟩ := hclose.exists_of_append (by decide)
    refine ⟨'/' :: '*' :: (x' ++ commentClose), r', by simp, .block ?_, hr⟩
    exact fun hc => hn (commentClose_infix_of_padded hx' hc)

theorem layout?_of_padded (h : Padded isMargin false t t') (ht : layout? t = none) :
    layout? t' = none := by
  cases h with
  | nil => rfl
  | @keep _ c t t' h =>
    rw [layout?] at ht ⊢
    simp only [beginsWith_cons, List.drop_succ_cons, List.drop_zero] at ht ⊢
    split at ht
    · cases ht
    · rename_i hs
      rw [if_neg hs]
      by_cases hc : c = '/'
      · subst hc
        have hb {p : CodePoint → Bool} : beginsWith p t' = beginsWith p t := beginsWith_of_padded h
        rw [hb, hb]
        split at ht
        · cases ht
        · rename_i hl
          rw [if_neg hl]
          split at ht
          · rename_i hstar
            rw [if_pos hstar]
            rw [Bool.and_eq_true] at hstar
            obtain ⟨d, t, rfl, hd⟩ := beginsWith_iff.mp hstar.2
            obtain ⟨t', rfl, hp⟩ := Padded.exists_of_cons_false h
            rw [Option.map_eq_none_iff, commentEnd?_eq_none_iff] at ht ⊢
            exact fun hc => ht (commentClose_infix_of_padded hp hc)
          · rename_i hstar
            rw [if_neg hstar]
      · simp [hc]

/-- A function of a text that looks no further than a line boundary is the same of padded text. -/
theorem eq_of_padded {A : Type} {f : Text → A}
    (hf : ∀ {c : CodePoint} (y z : Text), c ∈ separators → f (y ++ c :: z) = f y)
    (h : Padded isMargin false t t') : f t' = f t := by
  rcases h.eq_or_split with rfl | ⟨y, c, z, z', hc, rfl, rfl⟩
  · rfl
  · have hc := mem_separators_of_isLineBoundary hc
    rw [hf y z hc, hf y z' hc]

theorem floating?_of_padded (h : Padded isMargin false t t') : floating? t' = floating? t :=
  eq_of_padded (fun _ _ hc => floating?_of_separator hc) h

theorem integer?_of_padded (h : Padded isMargin false t t') : integer? t' = integer? t :=
  eq_of_padded (fun _ _ hc => integer?_of_separator hc) h

theorem mark?_of_padded {x : Text} (hx : x ≠ []) (h : Padded isMargin false t t') :
    mark? (x ++ t') = mark? (x ++ t) := by
  refine eq_of_padded (f := fun t => mark? (x ++ t)) (fun {c} y z hc => ?_) h
  have hcontinues : ∀ d ∈ separators, continuesMark d = false := by decide
  show mark? (x ++ (y ++ c :: z)) = mark? (x ++ y)
  rw [← List.append_assoc,
    mark?_append_cons (List.append_ne_nil_of_left_ne_nil hx y) (hcontinues c hc)]

/-- A lexeme is read before padded text as before the text. -/
theorem readBefore_padded {k : Terminal} {x : Text} (hk : ReadBefore t k x)
    (h : Padded isMargin false t t') : ReadBefore t' k x := by
  have hx : Padded isMargin false (x ++ t) (x ++ t') := .append_left x h
  cases hk with
  | floating hf => exact .floating (floating?_of_padded hx ▸ hf)
  | integer hf hi => exact .integer (floating?_of_padded hx ▸ hf) (integer?_of_padded hx ▸ hi)
  | word hw hr => exact .word hw (beginsWith_of_padded h ▸ hr)
  | character hq => exact .character hq
  | string hq => exact .string hq
  | @mark m hm =>
    obtain ⟨hf, hl, hm⟩ := hm
    exact .mark ⟨floating?_of_padded hx ▸ hf, layout?_of_padded hx hl,
      (mark?_of_padded (text_ne_nil m) h).trans hm⟩

theorem word?_of_padded (h : Padded isMargin false t t') (ht : word? t = none) :
    word? t' = none := by
  rw [word?, beginsWith_of_padded h]
  rw [word?] at ht
  split at ht
  · cases ht
  · rw [if_neg ‹_›]

theorem mark?_eq_none_of_padded (h : Padded isMargin false t t') (ht : mark? t = none) :
    mark? t' = none := by
  cases hm : mark? t' with
  | none => rfl
  | some m =>
    have hp := List.find?_some hm
    rw [List.isPrefixOf_iff_prefix] at hp
    obtain ⟨c, x, hx⟩ := List.exists_cons_of_ne_nil (text_ne_nil m)
    rw [hx] at hp
    cases h with
    | nil => cases List.prefix_nil.mp hp
    | @keep _ d t t' h =>
      obtain ⟨rfl, -⟩ := List.cons_prefix_cons.mp hp
      have hc : c.isLineBoundary = false := by
        have hall : ∀ m ∈ Mark.longestFirst, ∀ c ∈ m.text, c.isLineBoundary = false := by decide
        exact hall m (Mark.mem_longestFirst m) c (hx ▸ List.mem_cons_self)
      rw [hc] at h
      have he : mark? (c :: t') = mark? (c :: t) := mark?_of_padded (List.cons_ne_nil c []) h
      rw [← hm, he, ht]

/-- Where no lexeme begins, none begins in padded text. -/
theorem lexeme?_of_padded (h : Padded isMargin false t t') (ht : lexeme? t = none) :
    lexeme? t' = none := by
  simp only [lexeme?, Option.orElse_eq_orElse, Option.orElse_eq_or, Option.or_eq_none_iff,
    Option.map_eq_none_iff] at ht ⊢
  obtain ⟨hf, hl, hi, hw, hq, hq', hm⟩ := ht
  exact ⟨floating?_of_padded h ▸ hf, layout?_of_padded h hl, integer?_of_padded h ▸ hi,
    word?_of_padded h hw, quoted?_of_padded (by decide) h hq, quoted?_of_padded (by decide) h hq',
    mark?_eq_none_of_padded h hm⟩

/-- No quoted literal holds a line boundary. -/
def Boundless (tokens : List Token) : Prop :=
  ∀ token ∈ tokens, token.terminal ∈ [.character, .string] →
    ∀ c ∈ token.text, c.isLineBoundary = false

instance (tokens : List Token) : Decidable (Boundless tokens) :=
  inferInstanceAs (Decidable (∀ token ∈ tokens, _))

/-- Lexemes other than quoted literals never hold a line boundary. -/
theorem isLineBoundary_of_readBefore {k : Terminal} {x : Text} (h : ReadBefore t k x)
    (hk : k ∉ [.character, .string]) : ∀ c ∈ x, c.isLineBoundary = false := by
  intro c hc
  cases h with
  | floating hf =>
    rw [Bool.eq_false_iff]
    intro hb
    obtain ⟨y, z, rfl⟩ := List.append_of_mem hc
    rw [List.append_assoc, List.cons_append] at hf
    have hle := floating?_le_of_separator (mem_separators_of_isLineBoundary hb) hf
    rw [List.length_append, List.length_cons] at hle
    omega
  | integer _ hi =>
    rw [Bool.eq_false_iff]
    intro hb
    obtain ⟨y, z, rfl⟩ := List.append_of_mem hc
    rw [List.append_assoc, List.cons_append] at hi
    have hle := integer?_le_of_separator (mem_separators_of_isLineBoundary hb) hi
    rw [List.length_append, List.length_cons] at hle
    omega
  | word hw _ =>
    exact not_isLineBoundary (p := isIdentifierPart) (by decide +kernel)
      (List.all_eq_true.mp hw.2 c hc)
  | character | string => simp at hk
  | @mark m _ =>
    have hall : ∀ m ∈ Mark.longestFirst, ∀ c ∈ m.text, c.isLineBoundary = false := by decide
    exact hall m (Mark.mem_longestFirst m) c hc

/-- Padded text is read as the same lexemes, and to the same end. -/
theorem Scans.padded {p : Position} {unread : Text} {tokens : List Token}
    (h : Scans p t tokens unread) (hb : Boundless tokens) (hp : Padded isMargin false t t')
    (p' : Position) :
    ∃ tokens' unread', Scans p' t' tokens' unread' ∧
      tokens'.map (·.toLexeme) = tokens.map (·.toLexeme) ∧ (unread' = [] ↔ unread = []) := by
  induction h generalizing t' p' with
  | done =>
    obtain rfl := hp.eq_nil_of_false
    exact ⟨[], [], .done, rfl, Iff.rfl⟩
  | stuck hne hl =>
    obtain ⟨c, t, rfl⟩ := List.exists_cons_of_ne_nil hne
    obtain ⟨u, rfl, -⟩ := hp.exists_of_cons_false
    exact ⟨[], c :: u, .stuck (List.cons_ne_nil c u) (lexeme?_of_padded hp hl), rfl, by simp⟩
  | @layout p x rest unread tokens hx _ ih =>
    obtain ⟨x', rest', rfl, hx', hr⟩ := (isLayout_of_lexeme? hx).padded hp
    obtain ⟨tokens', unread', hs, ht, hu⟩ := ih hb hr (p'.advance x')
    exact ⟨tokens', unread', hx'.scans hs, ht, hu⟩
  | @token p x rest unread k tokens hx _ ih =>
    have hbound : ∀ c ∈ x, c.isLineBoundary = false := by
      by_cases hq : k ∈ [.character, .string]
      · exact hb _ List.mem_cons_self hq
      · exact isLineBoundary_of_readBefore (lexeme?_eq_some_iff.mp hx) hq
    obtain ⟨rest', rfl, hr⟩ := hp.exists_of_append hbound
    have hk := readBefore_padded (lexeme?_eq_some_iff.mp hx) hr
    obtain ⟨tokens', unread', hs, ht, hu⟩ :=
      ih (fun token hm => hb token (List.mem_cons_of_mem _ hm)) hr (p'.advance x)
    exact ⟨_, unread', .token (lexeme?_eq_some_iff.mpr hk) hs, by simp [ht], hu⟩

/-- The method found depends on the lexemes and on whether the text was read to its end. -/
theorem methodOfScan_congr {s s' : Scan}
    (ht : s.tokens.map (·.toLexeme) = s'.tokens.map (·.toLexeme))
    (hu : s.unread = [] ↔ s'.unread = []) :
    (methodOfScan t s).toOption = (methodOfScan t' s').toOption := by
  have hs := Grammar.Bounded.survivors_congr (grammar.start .method) ht
  simp only [methodOfScan]
  cases h : grammar.survivors (grammar.start .method) s.tokens with
  | error token =>
    cases h' : grammar.survivors (grammar.start .method) s'.tokens with
    | error token' => rfl
    | ok threads => rw [h, h'] at hs; cases hs
  | ok threads =>
    cases h' : grammar.survivors (grammar.start .method) s'.tokens with
    | error token' => rw [h, h'] at hs; cases hs
    | ok threads' =>
      rw [h, h'] at hs
      obtain rfl : threads = threads' := Option.some.inj hs
      cases hn : s.unread with
      | nil => rw [hu.mp hn]
      | cons c u =>
        have hne : s'.unread ≠ [] := fun he => by
          rw [hu.mpr he] at hn
          cases hn
        obtain ⟨c', u', hn'⟩ := List.exists_cons_of_ne_nil hne
        rw [hn']
        rfl

theorem toOption_parse (source : Text) :
    (parse source).toOption =
      (methodOfScan (unescape source) (scan (unescape source))).toOption := by
  simp only [parse]
  split
  · rename_i h
    rw [h]
    rfl
  · rename_i h
    rw [h]
    rfl

/-- A padded text is the method that the text is, unless a literal of it holds a line boundary. -/
theorem parse_padded {source source' : Text} (h : Padded isMargin false source source')
    (hb : Boundless (scan (unescape source)).tokens) :
    (parse source').toOption = (parse source).toOption := by
  obtain ⟨tokens', unread', hs, ht, hu⟩ :=
    (scans_scan (unescape source)).padded hb (padded_unescape h) .start
  rw [toOption_parse, toOption_parse, scan_eq_iff.mpr hs]
  exact methodOfScan_congr ht hu

end MemberAccess.Java
