import MemberAccess.Proofs.Grammar.Unambiguous

/-!
# What can follow

A table of the terminals that can follow a nonterminal is checked one alternative at a time. With
the first terminals it often tells two alternatives apart, once the terminals are dropped with which
both begin.
-/

namespace MemberAccess

variable {T N : Type}

def Symbol.terminal? : Symbol T N → Option T
  | skip t | take t => some t
  | node _ => none

namespace Grammar.Table
variable {G : Grammar T N} (table : Table G)

/-- The terminals with which a stream can begin if the symbols are read from it and the rest begins
with one of `after`. -/
def heads (after : List T) (ss : List (Symbol T N)) : List T :=
  table.firsts ss ++ if table.areNullable ss then after else []

variable {table} {after : List T} {ss ss' : List (Symbol T N)} {u s r : List (Lexeme T)}

theorem heads_append (h : G.Spans ss u) (hr : Heads after r) :
    Heads (table.heads after ss) (u ++ r) := by
  obtain ⟨hu, hn⟩ := table.fits_of_spans h
  refine Heads.append (hu.mono (List.subset_append_left ..)) fun h => hr.mono ?_
  rw [heads, if_pos (hn h)]
  exact List.subset_append_right ..

variable (table) in
/-- Each nonterminal among the symbols is followed by what `follow` tells of it, if the symbols are
followed by one of `after`. -/
def Follows (follow : N → List T) (after : List T) : List (Symbol T N) → Prop
  | [] => True
  | .node n :: ss => table.heads after ss ⊆ follow n ∧ Follows follow after ss
  | _ :: ss => Follows follow after ss

theorem each_of_follows {follow : N → List T} (h : table.Follows follow after ss)
    (hr : Heads after r) : G.Each (fun n _ r => Heads (follow n) r) ss s r := by
  induction ss generalizing s with
  | nil => trivial
  | cons x ss ih =>
    cases x with
    | skip t | take t => exact fun x s' _ => ih h
    | node n =>
      intro u y _ _ hy
      exact ⟨(heads_append hy hr).mono h.1, ih h.2⟩

theorem exists_cons_of_terminal? {x : Symbol T N} {t : T} (hx : x.terminal? = some t)
    (h : G.Spans (x :: ss) u) : ∃ y u', u = ⟨t, y⟩ :: u' ∧ G.Spans ss u' := by
  cases x with
  | skip t' | take t' =>
    obtain rfl := Option.some.inj hx
    exact h
  | node n => cases hx

section
variable [DecidableEq T]

instance {follow : N → List T} :
    (ss : List (Symbol T N)) → Decidable (table.Follows follow after ss)
  | [] => inferInstanceAs (Decidable True)
  | .node n :: ss =>
    have := @instDecidableFollows follow ss
    inferInstanceAs (Decidable (table.heads after ss ⊆ follow n ∧ table.Follows follow after ss))
  | .skip _ :: ss | .take _ :: ss => @instDecidableFollows follow ss

variable (table) in
def differ (after : List T) (ss ss' : List (Symbol T N)) : Bool :=
  !(table.areNullable ss && table.areNullable ss') &&
    (table.heads after ss).all (· ∉ table.heads after ss')

variable (table) in
/-- Whether the symbols begin with different terminals once they no longer begin with the same
one. -/
def differLater (after : List T) : List (Symbol T N) → List (Symbol T N) → Bool
  | s :: ss, s' :: ss' =>
    match s.terminal?, s'.terminal? with
    | some t, some t' => if t = t' then differLater after ss ss' else true
    | _, _ => table.differ after (s :: ss) (s' :: ss')
  | ss, ss' => table.differ after ss ss'

theorem false_of_differ {u' r' : List (Lexeme T)} (h : table.differ after ss ss') (hu : G.Spans ss u)
    (hu' : G.Spans ss' u') (he : u ++ r = u' ++ r') (hr : Heads after r) (hr' : Heads after r') :
    False := by
  rw [differ, Bool.and_eq_true, List.all_eq_true] at h
  obtain ⟨hnil, hd⟩ := h
  have hs : Heads (table.heads after ss) (u ++ r) := heads_append hu hr
  have hs' : Heads (table.heads after ss') (u' ++ r') := heads_append hu' hr'
  rw [← he] at hs'
  have hn := hs.eq_nil hs' fun t ht => of_decide_eq_true (hd t ht)
  obtain ⟨rfl, rfl⟩ := List.append_eq_nil_iff.mp hn
  obtain ⟨rfl, rfl⟩ := List.append_eq_nil_iff.mp he.symm
  have := (table.fits_of_spans hu).2 rfl
  have := (table.fits_of_spans hu').2 rfl
  simp_all

theorem false_of_differLater {u' r' : List (Lexeme T)} (h : table.differLater after ss ss')
    (hu : G.Spans ss u) (hu' : G.Spans ss' u') (he : u ++ r = u' ++ r') (hr : Heads after r)
    (hr' : Heads after r') : False := by
  fun_induction differLater table after ss ss' generalizing u u' with
  | case1 x ss x' ss' t hx' hx ih =>
    obtain ⟨y, v, rfl, hv⟩ := exists_cons_of_terminal? hx hu
    obtain ⟨y', v', rfl, hv'⟩ := exists_cons_of_terminal? hx' hu'
    exact ih h hv hv' (List.cons.inj he).2
  | case2 x ss x' ss' t t' hx' hx ht =>
    obtain ⟨y, v, rfl, -⟩ := exists_cons_of_terminal? hx hu
    obtain ⟨y', v', rfl, -⟩ := exists_cons_of_terminal? hx' hu'
    exact ht (Lexeme.mk.inj (List.cons.inj he).1).1
  | case3 | case4 => exact false_of_differ h hu hu' he hr hr'

theorem apart_of_differLater {P : List (Lexeme T) → List (Lexeme T) → Prop}
    (hP : ∀ s r, P s r → Heads after r) (h : table.differLater after ss ss') :
    G.Apart P ss ss' :=
  fun _ _ _ _ hu hu' he hr hr' => false_of_differLater h hu hu' he (hP _ _ hr) (hP _ _ hr')

end

end Grammar.Table

end MemberAccess
