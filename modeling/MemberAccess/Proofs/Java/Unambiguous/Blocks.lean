import MemberAccess.Proofs.Java.Unambiguous.Clashes

/-!
# Where block statements begin

A statement ends with a semicolon or a right brace. So a statement of a block comes after one of
these marks or after the left brace of the block.
-/

namespace MemberAccess.Java

namespace Nonterminal

variable {u w s r : List Lexeme}

abbrev statementMarks : List Terminal := [.mark .semicolon, .mark .rightBrace]

/-- The last lexeme, if there is one, is one with which statements end. -/
def EndsStatement (w : List Lexeme) : Prop := ∀ l ∈ w.getLast?, l.terminal ∈ statementMarks

theorem EndsStatement.append (hu : w = [] → EndsStatement u) (hw : EndsStatement w) :
    EndsStatement (u ++ w) := by
  cases w with
  | nil =>
    rw [List.append_nil]
    exact hu rfl
  | cons l w =>
    intro k hk
    refine hw k ?_
    rw [List.getLast?_append] at hk
    simpa [List.getLast?_cons] using hk

/-- Whether nothing but statements and their ends are read as the nonterminal. -/
def endsStatement : Nonterminal → Bool
  | block | blockStatement | chain _ | chainEnd _ | simpleStatement | tryTail | catchClause
  | many catchClause | after _ block | opt (after _ block) => true
  | _ => false

def symbolEnds : Symbol Terminal Nonterminal → Bool
  | .node n => endsStatement n
  | .skip t | .take t => t ∈ statementMarks

/-- Whether what is read as the symbols ends a statement. -/
def symbolsEnd : List (Symbol Terminal Nonterminal) → Bool
  | [] => true
  | x :: ss => symbolsEnd ss && (!firstTable.areNullable ss || symbolEnds x)

theorem symbolsEnd_of_endsStatement {n : Nonterminal} (h : endsStatement n) :
    ∀ a ∈ n.alternatives, symbolsEnd a.symbols := by
  unfold endsStatement at h
  split at h
  case h_11 => cases h
  case h_4 k => cases k <;> exact of_decide_eq_true rfl
  all_goals exact of_decide_eq_true rfl

theorem endsStatement_of_readsBy {R : Type} {ss : List (Symbol Terminal Nonterminal)}
    {b : Builder Value ss R} {v : R} (hs : symbolsEnd ss)
    (h : Grammar.ReadsBy (fun n w v => Derives n w v ∧ (endsStatement n → EndsStatement w)) ss b
      w v) : EndsStatement w := by
  induction ss generalizing w with
  | nil =>
    obtain ⟨rfl, -⟩ := h
    simp [EndsStatement]
  | cons x ss ih =>
    rw [symbolsEnd, Bool.and_eq_true, Bool.or_eq_true, Bool.not_eq_true'] at hs
    have hnil {b : Builder Value ss R} {w : List Lexeme}
        (h : Grammar.ReadsBy (fun n w v => Derives n w v ∧ (endsStatement n → EndsStatement w)) ss b
          w v) (hw : w = []) : symbolEnds x := by
      refine hs.2.resolve_left fun hn => ?_
      have hd := Grammar.spans_of_readsBy (G := grammar.toGrammar) (h.mono fun _ _ _ h => h.1)
      rw [(firstTable.fits_of_spans hd).2 hw] at hn
      cases hn
    cases x with
    | skip t | take t =>
      obtain ⟨x, w, rfl, h⟩ := h
      refine EndsStatement.append (u := [⟨t, x⟩]) (fun hw l hl => ?_) (ih hs.1 h)
      obtain rfl : ⟨t, x⟩ = l := by simpa using hl
      exact of_decide_eq_true (hnil h hw)
    | node n =>
      obtain ⟨u, a, w, rfl, hu, h⟩ := h
      exact .append (fun hw => hu.2 (hnil h hw)) (ih hs.1 h)

theorem endsStatement_of_is {n : Nonterminal} (h : grammar.Is n w) (hn : endsStatement n) :
    EndsStatement w := by
  obtain ⟨v, h⟩ := h
  refine (Derives.induct
    (P := fun n w v => Derives n w v ∧ (endsStatement n → EndsStatement w)) ?_ h).2 hn
  intro n a w v ha h
  exact ⟨.intro ha (h.mono fun _ _ _ h => h.1),
    fun hn => endsStatement_of_readsBy (symbolsEnd_of_endsStatement hn a ha) h⟩

/-- No block statement begins like a declaration whose type has a name for its argument. -/
def AngleFree (s : List Lexeme) : Prop :=
  ∀ u p t, s = u ++ p :: t → p.terminal ∈ .mark .leftBrace :: statementMarks → ¬ BeginsAngles t

theorem AngleFree.right (h : AngleFree (u ++ s)) : AngleFree s := by
  rintro v p t rfl hp
  exact h (u ++ v) p t (List.append_assoc ..).symm hp

def startsStatement : Nonterminal → Bool
  | blockStatement | many blockStatement => true
  | _ => false

/-- The stream does not begin like such a declaration where a block statement begins. -/
def Starts (n : Nonterminal) (s : List Lexeme) : Prop := startsStatement n → ¬ BeginsAngles s

theorem each_angleFree {ss : List (Symbol Terminal Nonterminal)} (h : AngleFree s) :
    grammar.Each (fun _ s _ => AngleFree s) ss s r := by
  induction ss generalizing s with
  | nil => trivial
  | cons x ss ih =>
    cases x with
    | skip t | take t =>
      rintro x s rfl
      exact ih (AngleFree.right (u := [⟨t, x⟩]) h)
    | node n =>
      rintro u y rfl _ _
      exact ⟨h, ih h.right⟩

def startsNone : Symbol Terminal Nonterminal → Bool
  | .node m => !startsStatement m
  | _ => true

theorem startsNone_of_mem : ∀ p ∈ places, p.2 ∉ [block, many blockStatement] →
    ∀ a ∈ p.2.alternatives, a.symbols.all startsNone := by decide +kernel

theorem startsNone_of_occurs {c : Context} {n : Nonterminal} (h : occurs c n)
    (hn : n ∉ [block, many blockStatement]) :
    ∀ a ∈ n.alternatives, a.symbols.all startsNone := by
  unfold occurs at h
  split at h
  · exact of_decide_eq_true rfl
  · rename_i k
    cases k <;> exact of_decide_eq_true rfl
  · exact startsNone_of_mem _ (of_decide_eq_true h) hn

theorem each_starts {c : Context} {n : Nonterminal} {a : Alternative Terminal Value n}
    (ha : a ∈ n.alternatives) (ho : occurs c n) (h : AngleFree s) (hs : Starts n s) :
    grammar.Each (fun m s _ => Starts m s) a.symbols s r := by
  by_cases hn : n ∈ [block, many blockStatement]
  · simp only [List.mem_cons, List.not_mem_nil, or_false] at hn
    rcases hn with rfl | rfl
    · obtain rfl := List.mem_singleton.mp ha
      rintro x s rfl u y rfl hu hy
      exact ⟨fun _ => h [] _ _ rfl (by simp), fun _ _ _ => trivial⟩
    · simp only [alternatives, List.mem_cons, List.not_mem_nil, or_false] at ha
      rcases ha with rfl | rfl
      · rintro u y rfl hu hy
        refine ⟨fun _ => hs rfl, fun _ _ _ _ _ => ⟨fun _ => ?_, trivial⟩⟩
        have hne := firstTable.ne_nil_of_is hu rfl
        have hp := endsStatement_of_is hu rfl _ (List.getLast?_eq_some_getLast hne)
        refine h (u.dropLast) (u.getLast hne) (y ++ r) ?_ (List.mem_cons_of_mem _ hp)
        rw [← List.singleton_append, ← List.append_assoc u.dropLast, List.dropLast_concat_getLast]
      · trivial
  · refine .of_afters fun m ys hys _ _ _ hm => ?_
    have := List.all_eq_true.mp (startsNone_of_occurs ho hn a ha) _ (Grammar.mem_of_mem_afters hys)
    simp [startsNone, hm] at this

end Nonterminal

end MemberAccess.Java
