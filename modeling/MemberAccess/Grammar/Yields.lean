import MemberAccess.Grammar.Reader

/-!
# What a thread yields

A thread yields a result for lexemes if they can be read as the symbols that it has left. Choosing
alternatives neither adds to what it yields nor takes from it, and a lexeme is read exactly where
the thread begins with its terminal.
-/

namespace MemberAccess

variable {T N : Type}

namespace Grammar

section
variable {G : Grammar T N} {R S : Type}

/-- Whether lexemes can be read as symbols does not depend on what is made of their values. -/
theorem Reads.rebuild {ss : List (Symbol T N)} {b : Builder G.Value ss R} {w : List (Lexeme T)}
    {r : R} (h : G.Reads ss b w r) (b' : Builder G.Value ss S) : ∃ r', G.Reads ss b' w r' := by
  induction ss generalizing w with
  | nil =>
    obtain ⟨rfl, rfl⟩ := reads_nil.mp h
    exact ⟨b', .nil _⟩
  | cons s ss ih =>
    cases s with
    | skip t =>
      obtain ⟨x, w', rfl, h'⟩ := reads_skip.mp h
      obtain ⟨r', hr⟩ := ih h' b'
      exact ⟨r', .skip hr⟩
    | take t =>
      obtain ⟨x, w', rfl, h'⟩ := reads_take.mp h
      obtain ⟨r', hr⟩ := ih h' (b' x)
      exact ⟨r', .take hr⟩
    | node n =>
      obtain ⟨a, ha, u, v, w', rfl, hu, hw⟩ := reads_node.mp h
      obtain ⟨r', hr⟩ := ih hw (b' v)
      exact ⟨r', .node ha hu hr⟩

end

theorem choices_append (weight : N → Nat) (nullable : N → Bool) (xs ys : List (Symbol T N)) :
    choices weight nullable (xs ++ ys) =
      choices weight nullable xs +
        if xs.all (·.isNullable nullable) then choices weight nullable ys else 0 := by
  induction xs with
  | nil => simp [choices]
  | cons s xs ih =>
    cases s with
    | skip t => simp [choices, Symbol.isNullable]
    | take t => simp [choices, Symbol.isNullable]
    | node n =>
      cases h : nullable n <;> simp [choices, Symbol.isNullable, h, ih, Nat.add_assoc]

end Grammar

namespace Thread

variable {G : Grammar T N} {R : Type}

/-- The lexemes `w` can be read as what is left of the thread, with the result `r`. -/
def Yields (thread : Thread G R) (w : List (Lexeme T)) (r : R) : Prop :=
  G.Reads thread.stack thread.build w r

theorem Yields.of_mem_expand {depth : Nat} {thread thread' : Thread G R} {w : List (Lexeme T)}
    {r : R} (hm : thread' ∈ thread.expand depth) (h : thread'.Yields w r) :
    thread.Yields w r := by
  induction depth generalizing thread with
  | zero => simp [expand] at hm
  | succ depth ih =>
    obtain ⟨stack, build⟩ := thread
    match stack, build with
    | [], _ | .skip _ :: _, _ | .take _ :: _, _ =>
      simp only [expand, List.mem_singleton] at hm
      exact hm ▸ h
    | .node n :: ss, build =>
      simp only [expand, List.mem_flatMap] at hm
      obtain ⟨a, ha, hm⟩ := hm
      obtain ⟨u, v, w', rfl, hu, hw⟩ := Grammar.reads_compose.mp (ih hm)
      exact .node ha hu hw

theorem shift_eq_some_iff [DecidableEq T] {l : Lexeme T} {thread thread' : Thread G R}
    {w : List (Lexeme T)} {r : R} (hs : thread.shift l = some thread') :
    thread.Yields (l :: w) r ↔ thread'.Yields w r := by
  obtain ⟨stack, build⟩ := thread
  match stack, build with
  | [], _ | .node _ :: _, _ => simp [shift] at hs
  | .skip t :: ss, build =>
    simp only [shift, Option.ite_none_right_eq_some, Option.some.injEq] at hs
    obtain ⟨rfl, rfl⟩ := hs
    simp only [Yields, Grammar.reads_skip]
    grind
  | .take t :: ss, build =>
    simp only [shift, Option.ite_none_right_eq_some, Option.some.injEq] at hs
    obtain ⟨rfl, rfl⟩ := hs
    simp only [Yields, Grammar.reads_take]
    grind

/-- Whether a thread has no choice to make before its next step. -/
def IsSettled (thread : Thread G R) : Prop := ∀ n ss, thread.stack ≠ .node n :: ss

theorem isSettled_of_mem_expand {depth : Nat} {thread thread' : Thread G R}
    (hm : thread' ∈ thread.expand depth) : thread'.IsSettled := by
  induction depth generalizing thread with
  | zero => simp [expand] at hm
  | succ depth ih =>
    obtain ⟨stack, build⟩ := thread
    match stack, build with
    | [], _ | .skip _ :: _, _ | .take _ :: _, _ =>
      simp only [expand, List.mem_singleton] at hm
      subst hm
      simp [IsSettled]
    | .node n :: ss, build =>
      simp only [expand, List.mem_flatMap] at hm
      obtain ⟨a, ha, hm⟩ := hm
      exact ih hm

theorem IsSettled.exists_shift [DecidableEq T] {l : Lexeme T} {thread : Thread G R}
    {w : List (Lexeme T)} {r : R} (hs : thread.IsSettled) (h : thread.Yields (l :: w) r) :
    ∃ thread', thread.shift l = some thread' := by
  obtain ⟨stack, build⟩ := thread
  match stack, build with
  | [], _ => cases h
  | .node n :: ss, _ => exact absurd rfl (hs n ss)
  | .skip t :: ss, build =>
    obtain ⟨x, w', hl, -⟩ := Grammar.reads_skip.mp h
    simp [shift, (List.cons.inj hl).1]
  | .take t :: ss, build =>
    obtain ⟨x, w', hl, -⟩ := Grammar.reads_take.mp h
    simp [shift, (List.cons.inj hl).1]

theorem result?_eq_some_iff {thread : Thread G R} {r : R} (hs : thread.IsSettled) :
    thread.result? = some r ↔ thread.Yields [] r := by
  obtain ⟨stack, build⟩ := thread
  match stack, build with
  | [], _ => simp [result?, Yields, Grammar.reads_nil]
  | .node n :: ss, _ => exact absurd rfl (hs n ss)
  | .skip t :: ss, build => simp [result?, Yields, Grammar.reads_skip]
  | .take t :: ss, build => simp [result?, Yields, Grammar.reads_take]

section
variable [DecidableEq T] [DecidableEq N]

theorem mem_of_mem_dedup {threads : List (Thread G R)} {thread : Thread G R}
    (h : thread ∈ dedup threads) : thread ∈ threads := by
  induction threads with
  | nil => exact h
  | cons first more ih =>
    rcases List.mem_cons.mp h with rfl | h
    · exact List.mem_cons_self
    · exact List.mem_cons_of_mem _ (ih (List.mem_filter.mp h).1)

theorem exists_mem_dedup {threads : List (Thread G R)} {thread : Thread G R}
    (h : thread ∈ threads) : ∃ thread' ∈ dedup threads, thread'.stack = thread.stack := by
  induction threads with
  | nil => cases h
  | cons first more ih =>
    by_cases hf : first.stack = thread.stack
    · exact ⟨first, List.mem_cons_self, hf⟩
    · rcases List.mem_cons.mp h with rfl | h
      · exact absurd rfl hf
      · obtain ⟨thread', hm, he⟩ := ih h
        exact ⟨thread', List.mem_cons_of_mem _
        (List.mem_filter.mpr ⟨hm, by simpa [he] using Ne.symm hf⟩), he⟩

end

end Thread

end MemberAccess
