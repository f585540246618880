import MemberAccess.Proofs.Java.Lexeme

/-!
# White space and comments

What is skipped between lexemes is white space, a comment to the end of its line or a comment to its
closing mark.
-/

namespace MemberAccess.Java

open Lexer

def commentClose : Text := ['*', '/']

/-- White space, or a comment before `r`. A line comment ends where the line or the text ends. -/
inductive IsLayout (r : Text) : Text → Prop where
  | spaces {x : Text} : x.all isSpace = true → IsLayout r x
  | line {x : Text} : CodePoint.ofChar '\n' ∉ x → Text.beginsWith (· != '\n') r = false →
    IsLayout r ('/' :: '/' :: x)
  | block {x : Text} : ¬ commentClose <:+: x → IsLayout r ('/' :: '*' :: (x ++ commentClose))

variable {c : CodePoint} {x r t unread : Text} {p : Position} {tokens : List Token}

theorem lexeme?_layout (hd : c.isAsciiDigit = false) (hp : c ≠ '.') {n : Nat}
    (h : layout? (c :: t) = some n) : lexeme? (c :: t) = some (.layout, n) := by
  rw [lexeme?, floating?_eq_none hd hp, h]
  rfl

theorem layout?_of_lexeme? {n : Nat} (h : lexeme? t = some (.layout, n)) :
    layout? t = some n := by
  simp only [lexeme?, Option.orElse_eq_orElse, Option.orElse_eq_or, Option.or_eq_some_iff,
    Option.map_eq_some_iff, Prod.mk.injEq, reduceCtorEq, false_and, and_false, exists_false,
    or_false, false_or, true_and, exists_eq_right] at h
  exact h.2

theorem lexeme?_space (h : isSpace c = true) (t : Text) :
    lexeme? (c :: t) = some (.layout, run isSpace t + 1) := by
  have hc := mem_separators_of_isSpace h
  have hd : ∀ d ∈ separators, d.isAsciiDigit = false := by decide
  have hp : ∀ d ∈ separators, d ≠ '.' := by decide
  rw [lexeme?, floating?_eq_none (hd c hc) (hp c hc)]
  simp [layout?, h, run]

/-- One more space makes white space longer, or begins it. -/
theorem Scans.space (hc : isSpace c = true) (h : Scans (p.step c) t tokens unread) :
    Scans p (c :: t) tokens unread := by
  cases hs : Text.beginsWith isSpace t with
  | false =>
    have hrun : run isSpace t = 0 := by
      cases t with
      | nil => rfl
      | cons d t => simp_all [run]
    have hl := lexeme?_space hc t
    rw [hrun] at hl
    exact .layout (x := [c]) hl h
  | true =>
    obtain ⟨d, t, rfl, hd⟩ := Text.beginsWith_iff.mp hs
    have ht := lexeme?_space hd t
    generalize he : d :: t = t' at h ht
    cases h with
    | done => cases he
    | stuck _ hn => exact absurd (hn.symm.trans ht) (by simp)
    | token hk _ => exact absurd (hk.symm.trans ht) (by simp)
    | @layout _ x rest _ _ hx h =>
      have hlen : x.length = run isSpace (x ++ rest) := by
        have hn := (Prod.mk.inj (Option.some.inj (hx.symm.trans ht))).2
        rw [hn, ← he]
        simp [run, hd]
      refine .layout (x := c :: x) ?_ h
      rw [List.cons_append, lexeme?_space hc, ← hlen]
      rfl

theorem Scans.spaces (hx : x.all isSpace = true) (h : Scans (p.advance x) t tokens unread) :
    Scans p (x ++ t) tokens unread := by
  induction x generalizing p with
  | nil => exact h
  | cons c x ih =>
    rw [List.all_cons, Bool.and_eq_true] at hx
    exact .space hx.1 (ih hx.2 h)

theorem lexeme?_lineComment (hx : CodePoint.ofChar '\n' ∉ x)
    (hr : Text.beginsWith (· != '\n') r = false) :
    lexeme? ('/' :: '/' :: (x ++ r)) = some (.layout, x.length + 2) := by
  have hrun : run (· != '\n') (CodePoint.ofChar '/' :: '/' :: (x ++ r)) = x.length + 2 := by
    rw [← List.cons_append, ← List.cons_append, run_append_of_beginsWith hr, run_eq_length]
    · rfl
    · simp only [List.all_cons, List.all_eq_true, Bool.and_eq_true, bne_iff_ne]
      exact ⟨by decide, by decide, fun c hc he => hx (he ▸ hc)⟩
  have hs : isSpace '/' = false := by decide
  refine lexeme?_layout (by decide) (by decide) ?_
  simp [layout?, hs, hrun]

theorem commentClose_prefix_iff :
    commentClose <+: c :: t ↔ (c = '*' && Text.beginsWith (· == '/') t) = true := by
  rw [Bool.and_eq_true, decide_eq_true_eq, commentClose, List.cons_prefix_cons, eq_comm]
  refine and_congr_right fun _ => ?_
  cases t with
  | nil => simp
  | cons d t =>
    rw [List.cons_prefix_cons, Text.beginsWith_cons, beq_iff_eq, eq_comm,
      and_iff_left List.nil_prefix]

/-- No comment ends in a text that does not hold its closing mark. -/
theorem commentEnd?_eq_none_iff : commentEnd? t = none ↔ ¬ commentClose <:+: t := by
  induction t with
  | nil => simp [commentEnd?, commentClose]
  | cons c t ih =>
    rw [List.infix_cons_iff, not_or, ← ih, commentClose_prefix_iff, commentEnd?]
    split <;> simp_all

theorem commentEnd?_append (hx : ¬ commentClose <:+: x) (r : Text) :
    commentEnd? (x ++ (commentClose ++ r)) = some (x.length + 2) := by
  induction x with
  | nil => rfl
  | cons c x ih =>
    rw [List.infix_cons_iff, not_or] at hx
    have hend : ¬ (c = '*' && Text.beginsWith (· == '/') (x ++ (commentClose ++ r))) = true := by
      rw [Bool.and_eq_true, decide_eq_true_eq]
      rintro ⟨rfl, hb⟩
      cases x with
      | nil => exact absurd (eq_of_beq hb) (by decide)
      | cons d x =>
        obtain rfl : d = '/' := eq_of_beq hb
        exact hx.1 ⟨x, rfl⟩
    rw [List.cons_append, commentEnd?, if_neg hend, ih hx.2]
    rfl

theorem exists_of_commentEnd? {n : Nat} (h : commentEnd? t = some n) :
    ∃ x r, t = x ++ (commentClose ++ r) ∧ n = x.length + 2 ∧ ¬ commentClose <:+: x := by
  fun_induction commentEnd? t generalizing n with
  | case1 => cases h
  | case2 c rest hc =>
    obtain rfl := Option.some.inj h
    obtain ⟨r, hr⟩ := commentClose_prefix_iff.mpr hc
    exact ⟨[], r, hr.symm, rfl, by decide⟩
  | case3 c rest hc ih =>
    obtain ⟨m, hm, rfl⟩ := Option.map_eq_some_iff.mp h
    obtain ⟨x, r, rfl, rfl, hx⟩ := ih hm
    refine ⟨c :: x, r, rfl, rfl, ?_⟩
    rw [List.infix_cons_iff, not_or]
    rw [← commentClose_prefix_iff] at hc
    exact ⟨fun hp => hc (hp.trans (List.prefix_append (c :: x) _)), hx⟩

theorem lexeme?_blockComment (hx : ¬ commentClose <:+: x) (r : Text) :
    lexeme? ('/' :: '*' :: (x ++ (commentClose ++ r))) = some (.layout, x.length + 4) := by
  have hs : isSpace '/' = false := by decide
  have hne : CodePoint.ofChar '*' ≠ '/' := by decide
  refine lexeme?_layout (by decide) (by decide) ?_
  simp [layout?, hs, hne, commentEnd?_append hx]

/-- What is skipped is white space or a comment. -/
theorem isLayout_of_lexeme? (h : lexeme? (x ++ r) = some (.layout, x.length)) : IsLayout r x := by
  have hpos := (lexeme?_fits h).1
  rcases layout?_cases (layout?_of_lexeme? h) with ⟨-, hn⟩ | ⟨rest, he, hn⟩ | ⟨rest, m, he, hm, hn⟩
  · exact .spaces (all_of_run hn.symm).1
  · obtain ⟨hall, hr⟩ := all_of_run hn.symm
    match x with
    | [] => cases hpos
    | [c] =>
      -- The second slash would stand where the line ends.
      obtain ⟨-, rfl⟩ := List.cons.inj he
      have hslash : (CodePoint.ofChar '/' != '\n') = true := by decide
      exact absurd (hslash.symm.trans hr) (by decide)
    | c :: d :: x =>
      obtain ⟨rfl, rfl, -⟩ : c = '/' ∧ d = '/' ∧ x ++ r = rest := by simpa using he
      refine .line (fun hm => ?_) hr
      exact absurd (List.all_eq_true.mp hall _ (.tail _ (.tail _ hm))) (by decide)
  · obtain ⟨y, r', rfl, rfl, hy⟩ := exists_of_commentEnd? hm
    match x with
    | [] => cases hpos
    | [c] => cases hn
    | c :: d :: x =>
      obtain ⟨rfl, rfl, hrest⟩ : c = '/' ∧ d = '*' ∧ x ++ r = (y ++ commentClose) ++ r' := by
        simpa using he
      have hlen : x.length = (y ++ commentClose).length := by
        rw [List.length_append, commentClose]
        simpa using hn
      rw [List.append_inj_left hrest hlen]
      exact .block hy

theorem IsLayout.scans (h : IsLayout r x) (hr : Scans (p.advance x) r tokens unread) :
    Scans p (x ++ r) tokens unread := by
  cases h with
  | spaces hx => exact hr.spaces hx
  | line hx hend => exact .layout (lexeme?_lineComment hx hend) hr
  | @block x hx =>
    refine .layout ?_ hr
    have hl := lexeme?_blockComment hx r
    rw [← List.append_assoc] at hl
    rw [List.cons_append, List.cons_append, hl]
    simp [commentClose]

end MemberAccess.Java
