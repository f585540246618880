import MemberAccess.Grammar.Yields

/-!
# What the reader accepts

The reader finds a value if and only if the lexemes derive one, and the value that it finds is among
those. A token that it refuses cannot follow what was read before it.
-/

namespace MemberAccess

variable {T N : Type}

namespace Grammar.Bounded

variable {G : Bounded T N} {R : Type}

/-- All nonterminals among the symbols are proper. -/
def IsProper (G : Bounded T N) (ss : List (Symbol T N)) : Prop :=
  ∀ n, .node n ∈ ss → G.proper n

theorem exists_mem_expand {depth : Nat} {thread : Thread G.toGrammar R} {w : List (Lexeme T)}
    {r : R} (hp : G.IsProper thread.stack) (hd : choices G.weight G.nullable thread.stack < depth)
    (h : thread.Yields w r) : ∃ thread' ∈ thread.expand depth, thread'.Yields w r := by
  induction depth generalizing thread with
  | zero => omega
  | succ depth ih =>
    obtain ⟨stack, build⟩ := thread
    match stack, build with
    | [], _ | .skip _ :: _, _ | .take _ :: _, _ => exact ⟨_, by simp [Thread.expand], h⟩
    | .node n :: ss, build =>
      obtain ⟨a, ha, u, v, w', rfl, hu, hw⟩ := reads_node.mp h
      have hn : G.proper n := hp n (by simp)
      have hlt := G.choices_lt_weight hn ha
      have hnull := G.nullable_of_mem hn ha
      obtain ⟨thread', hm, hy⟩ :=
        @ih ⟨a.symbols ++ ss, Builder.compose a.symbols a.build build⟩
          (fun m hm => (List.mem_append.mp hm).elim (G.proper_of_mem hn ha)
            fun hm => hp m (List.mem_cons_of_mem _ hm))
          (by
            simp only [choices, choices_append] at hd ⊢
            cases h : a.symbols.all (·.isNullable G.nullable)
            · simp; omega
            · simp [hnull h] at hd ⊢; omega)
          (reads_compose.mpr ⟨u, v, w', rfl, hu, hw⟩)
      exact ⟨thread', by simpa [Thread.expand] using ⟨a, ha, hm⟩, hy⟩

theorem isProper_of_mem_expand {depth : Nat} {thread thread' : Thread G.toGrammar R}
    (hp : G.IsProper thread.stack) (hm : thread' ∈ thread.expand depth) :
    G.IsProper thread'.stack := by
  induction depth generalizing thread with
  | zero => exact absurd hm List.not_mem_nil
  | succ depth ih =>
    obtain ⟨stack, build⟩ := thread
    match stack, build with
    | [], _ | .skip _ :: _, _ | .take _ :: _, _ =>
      simp only [Thread.expand, List.mem_singleton] at hm
      exact hm ▸ hp
    | .node n :: ss, build =>
      simp only [Thread.expand, List.mem_flatMap] at hm
      obtain ⟨a, ha, hm⟩ := hm
      refine ih ?_ hm
      intro m hm
      exact (List.mem_append.mp hm).elim (G.proper_of_mem (hp n (by simp)) ha)
        fun hm => hp m (List.mem_cons_of_mem _ hm)

section
variable [DecidableEq T]

theorem isProper_of_shift {l : Lexeme T} {thread thread' : Thread G.toGrammar R}
    (hp : G.IsProper thread.stack) (hs : thread.shift l = some thread') :
    G.IsProper thread'.stack := by
  obtain ⟨stack, build⟩ := thread
  match stack, build with
  | [], _ | .node _ :: _, _ => simp [Thread.shift] at hs
  | .skip t :: ss, build | .take t :: ss, build =>
    simp only [Thread.shift, Option.ite_none_right_eq_some, Option.some.injEq] at hs
    obtain ⟨rfl, rfl⟩ := hs
    exact fun n hn => hp n (List.mem_cons_of_mem _ hn)

variable [DecidableEq N] {threads : List (Thread G.toGrammar R)} {l : Lexeme T}

theorem mem_of_mem_advance {thread' : Thread G.toGrammar R} (h : thread' ∈ G.advance threads l) :
    ∃ thread ∈ threads, ∃ settled ∈ G.frontier thread, settled.shift l = some thread' := by
  have h := Thread.mem_of_mem_dedup h
  simp only [List.mem_filterMap, List.mem_flatMap] at h
  obtain ⟨settled, ⟨thread, ht, hf⟩, hs⟩ := h
  exact ⟨thread, ht, settled, hf, hs⟩

/-- What is read after a lexeme has been read can be read after that lexeme. -/
theorem yields_of_mem_advance {thread' : Thread G.toGrammar R} {w : List (Lexeme T)} {r : R}
    (hm : thread' ∈ G.advance threads l) (h : thread'.Yields w r) :
    ∃ thread ∈ threads, thread.Yields (l :: w) r := by
  obtain ⟨thread, ht, settled, hf, hs⟩ := mem_of_mem_advance hm
  exact ⟨thread, ht, .of_mem_expand hf ((Thread.shift_eq_some_iff hs).mpr h)⟩

theorem exists_mem_advance {thread : Thread G.toGrammar R} {w : List (Lexeme T)} {r : R}
    (ht : thread ∈ threads) (hp : G.IsProper thread.stack) (h : thread.Yields (l :: w) r) :
    ∃ thread' ∈ G.advance threads l, ∃ r', thread'.Yields w r' := by
  obtain ⟨settled, hf, hy⟩ := exists_mem_expand hp (Nat.lt_succ_self _) h
  obtain ⟨next, hs⟩ := (Thread.isSettled_of_mem_expand hf).exists_shift hy
  have hn := (Thread.shift_eq_some_iff hs).mp hy
  have hmem : next ∈ (threads.flatMap G.frontier).filterMap (Thread.shift l) :=
    List.mem_filterMap.mpr ⟨settled, List.mem_flatMap.mpr ⟨thread, ht, hf⟩, hs⟩
  obtain ⟨thread', hm, he⟩ := Thread.exists_mem_dedup hmem
  obtain ⟨stack, build⟩ := thread'
  subst he
  exact ⟨_, hm, Reads.rebuild hn build⟩

theorem isProper_of_mem_advance (hp : ∀ thread ∈ threads, G.IsProper thread.stack) :
    ∀ thread ∈ G.advance threads l, G.IsProper thread.stack := by
  intro thread' hm
  obtain ⟨thread, ht, settled, hf, hs⟩ := mem_of_mem_advance hm
  exact isProper_of_shift (isProper_of_mem_expand (hp _ ht) hf) hs

omit [DecidableEq T] [DecidableEq N] in
theorem yields_of_complete? {r : R} (h : G.complete? threads = some r) :
    ∃ thread ∈ threads, thread.Yields [] r := by
  obtain ⟨settled, hm, hr⟩ := List.exists_of_findSome?_eq_some h
  obtain ⟨thread, ht, hf⟩ := List.mem_flatMap.mp hm
  exact ⟨thread, ht, .of_mem_expand hf
    ((Thread.result?_eq_some_iff (Thread.isSettled_of_mem_expand hf)).mp hr)⟩

omit [DecidableEq T] [DecidableEq N] in
theorem exists_complete? {thread : Thread G.toGrammar R} {r : R} (ht : thread ∈ threads)
    (hp : G.IsProper thread.stack) (h : thread.Yields [] r) :
    ∃ r', G.complete? threads = some r' := by
  obtain ⟨settled, hf, hy⟩ := exists_mem_expand hp (Nat.lt_succ_self _) h
  rw [← Option.isSome_iff_exists, complete?, List.findSome?_isSome_iff]
  exact ⟨settled, List.mem_flatMap.mpr ⟨thread, ht, hf⟩, by
    rw [(Thread.result?_eq_some_iff (Thread.isSettled_of_mem_expand hf)).mpr hy]; rfl⟩

/-- The first thread to end has read all tokens. -/
theorem yields_of_survivors {tokens : List (Token T)} {last : List (Thread G.toGrammar R)} {r : R}
    (h : G.survivors threads tokens = .ok last) (hr : G.complete? last = some r) :
    ∃ thread ∈ threads, thread.Yields (tokens.map (·.toLexeme)) r := by
  induction tokens generalizing threads with
  | nil =>
    cases h
    exact yields_of_complete? hr
  | cons token rest ih =>
    have h' : G.survivors (G.advance threads token.toLexeme) rest = .ok last := by
      rw [survivors] at h
      split at h <;> simp_all
    obtain ⟨thread', hm, hy⟩ := ih h'
    exact yields_of_mem_advance hm hy

/-- Tokens that can be read are read to the end. -/
theorem exists_survivors {tokens : List (Token T)}
    (hp : ∀ thread ∈ threads, G.IsProper thread.stack) {thread : Thread G.toGrammar R} {r : R}
    (ht : thread ∈ threads) (h : thread.Yields (tokens.map (·.toLexeme)) r) :
    ∃ last r', G.survivors threads tokens = .ok last ∧ G.complete? last = some r' := by
  induction tokens generalizing threads thread r with
  | nil =>
    obtain ⟨r', hr⟩ := exists_complete? ht (hp _ ht) h
    exact ⟨threads, r', rfl, hr⟩
  | cons token rest ih =>
    obtain ⟨thread', hm, r', hy⟩ := exists_mem_advance ht (hp _ ht) h
    obtain ⟨last, r', hs, hr⟩ := ih (isProper_of_mem_advance hp) hm hy
    refine ⟨last, r', ?_, hr⟩
    rw [survivors]
    split
    · simp_all
    · simpa using hs

/-- A refused token cannot follow the tokens before it, which are not refused. -/
theorem not_yields_of_survivors {tokens : List (Token T)} {token : Token T}
    (hp : ∀ thread ∈ threads, G.IsProper thread.stack)
    (h : G.survivors threads tokens = .error token) :
    ∃ before after last, tokens = before ++ token :: after ∧ G.survivors threads before = .ok last ∧
      ∀ thread ∈ threads, ∀ w r,
        ¬ thread.Yields (before.map (·.toLexeme) ++ token.toLexeme :: w) r := by
  induction tokens generalizing threads with
  | nil => cases h
  | cons first rest ih =>
    rw [survivors] at h
    split at h
    next he =>
      cases h
      refine ⟨[], rest, threads, rfl, rfl, fun thread ht w r hy => ?_⟩
      obtain ⟨thread', hm, -⟩ := exists_mem_advance ht (hp _ ht) hy
      simp [he] at hm
    next he =>
      obtain ⟨before, after, last, rfl, hl, hn⟩ := ih (isProper_of_mem_advance hp) h
      refine ⟨first :: before, after, last, rfl, ?_, fun thread ht w r hy => ?_⟩
      · rw [survivors]
        split
        · simp_all
        · exact hl
      · obtain ⟨thread', hm, r', hy'⟩ := exists_mem_advance ht (hp _ ht) hy
        exact hn thread' hm w r' hy'

/-- Where tokens stand does not matter to the threads that survive them. -/
theorem survivors_congr (threads : List (Thread G.toGrammar R)) {tokens tokens' : List (Token T)}
    (h : tokens.map (·.toLexeme) = tokens'.map (·.toLexeme)) :
    (G.survivors threads tokens).toOption = (G.survivors threads tokens').toOption := by
  induction tokens generalizing threads tokens' with
  | nil =>
    obtain rfl := List.map_eq_nil_iff.mp h.symm
    rfl
  | cons token rest ih =>
    obtain ⟨token', rest', rfl, ht, hr⟩ := List.map_eq_cons_iff.mp h.symm
    have ht : token'.toLexeme = token.toLexeme := ht
    rw [survivors, survivors, ht]
    cases G.advance threads token.toLexeme with
    | nil => rfl
    | cons thread more => exact ih _ hr.symm

omit [DecidableEq T] [DecidableEq N] in
theorem yields_start_iff {n : N} {w : List (Lexeme T)} {v : G.Value n} :
    (∃ thread ∈ G.start n, thread.Yields w v) ↔ G.Derives n w v := by
  simp only [start, List.mem_singleton, exists_eq_left, Thread.Yields, reads_node, reads_nil]
  constructor
  · rintro ⟨a, ha, u, v', w', rfl, hu, rfl, rfl⟩
    exact ⟨a, ha, by simpa using hu⟩
  · rintro ⟨a, ha, hu⟩
    exact ⟨a, ha, w, v, [], by simp, hu, rfl, rfl⟩

/-- A value that the reader finds is one that the tokens derive. -/
theorem derives_of_survivors {n : N} {tokens : List (Token T)}
    {last : List (Thread G.toGrammar (G.Value n))} {v : G.Value n}
    (h : G.survivors (G.start n) tokens = .ok last) (hv : G.complete? last = some v) :
    G.Derives n (tokens.map (·.toLexeme)) v :=
  yields_start_iff.mp (yields_of_survivors h hv)

/-- The reader finds a value if the tokens derive any. -/
theorem exists_survivors_of_derives {n : N} (hn : G.proper n) {tokens : List (Token T)}
    {v : G.Value n} (h : G.Derives n (tokens.map (·.toLexeme)) v) :
    ∃ last v', G.survivors (G.start n) tokens = .ok last ∧ G.complete? last = some v' := by
  obtain ⟨thread, ht, hy⟩ := yields_start_iff.mpr h
  refine exists_survivors ?_ ht hy
  simp [start, IsProper, hn]

end

end Grammar.Bounded

end MemberAccess
