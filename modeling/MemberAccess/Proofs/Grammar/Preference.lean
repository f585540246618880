import MemberAccess.Grammar.Recognition
import MemberAccess.Proofs.Grammar.Induction

/-!
# Which reading is preferred

The reader keeps its threads in the order of alternatives and takes the first that ends. So the
value that it finds is read with the first alternative, at each nonterminal, with which all that is
left can be read. In particular no alternative before the one that is taken has the same lexemes.
-/

namespace MemberAccess

variable {T N : Type}

namespace Grammar

/-- `Prefers ss build w r k z`: the lexemes `w` are read as the symbols `ss` with the result `r`
where `z` is left for the symbols `k`. At each nonterminal no alternative before the one that is
taken can be read, together with what comes after it, from all that is left. -/
inductive Prefers (G : Grammar T N) : {R : Type} → (ss : List (Symbol T N)) → Builder G.Value ss R →
    List (Lexeme T) → R → List (Symbol T N) → List (Lexeme T) → Prop where
  | nil {R : Type} {k : List (Symbol T N)} {z : List (Lexeme T)} (r : R) : Prefers G [] r [] r k z
  | skip {R : Type} {t : T} {ss k : List (Symbol T N)} {build : Builder G.Value ss R} {x : Text}
      {w z : List (Lexeme T)} {r : R} :
      Prefers G ss build w r k z → Prefers G (.skip t :: ss) build (⟨t, x⟩ :: w) r k z
  | take {R : Type} {t : T} {ss k : List (Symbol T N)} {build : Text → Builder G.Value ss R}
      {x : Text} {w z : List (Lexeme T)} {r : R} :
      Prefers G ss (build x) w r k z → Prefers G (.take t :: ss) build (⟨t, x⟩ :: w) r k z
  | node {R : Type} {n : N} {ss k : List (Symbol T N)}
      {build : G.Value n → Builder G.Value ss R} {before after : List (Alternative T G.Value n)}
      {a : Alternative T G.Value n} {u w z : List (Lexeme T)} {v : G.Value n} {r : R} :
      G.alternatives n = before ++ a :: after →
      (∀ b ∈ before, ¬ G.Spans (b.symbols ++ (ss ++ k)) (u ++ (w ++ z))) →
      Prefers G a.symbols a.build u v (ss ++ k) (w ++ z) → Prefers G ss (build v) w r k z →
      Prefers G (.node n :: ss) build (u ++ w) r k z

/-- Where what comes after the nonterminal is read from some lexemes, the value is the one that is
preferred. -/
def Preferred (G : Grammar T N) (n : N) (w : List (Lexeme T)) (v : G.Value n) : Prop :=
  ∃ k z, G.Spans k z ∧ G.Prefers [.node n] (fun v => v) w v k z

section
variable {G : Grammar T N} {R S : Type} {n : N} {ss rest k : List (Symbol T N)}
  {w z : List (Lexeme T)} {r : R}

theorem prefers_nil {b : R} : G.Prefers ([] : List (Symbol T N)) b w r k z ↔ w = [] ∧ b = r := by
  constructor
  · intro h
    cases h
    exact ⟨rfl, rfl⟩
  · rintro ⟨rfl, rfl⟩
    exact .nil _

theorem prefers_skip {t : T} {b : Builder G.Value ss R} :
    G.Prefers (.skip t :: ss) b w r k z ↔ ∃ x w', w = ⟨t, x⟩ :: w' ∧ G.Prefers ss b w' r k z := by
  constructor
  · intro h
    cases h with
    | skip h => exact ⟨_, _, rfl, h⟩
  · rintro ⟨x, w', rfl, h⟩
    exact .skip h

theorem prefers_take {t : T} {b : Text → Builder G.Value ss R} :
    G.Prefers (.take t :: ss) b w r k z ↔
      ∃ x w', w = ⟨t, x⟩ :: w' ∧ G.Prefers ss (b x) w' r k z := by
  constructor
  · intro h
    cases h with
    | take h => exact ⟨_, _, rfl, h⟩
  · rintro ⟨x, w', rfl, h⟩
    exact .take h

theorem prefers_node {b : G.Value n → Builder G.Value ss R} :
    G.Prefers (.node n :: ss) b w r k z ↔
      ∃ before a after u v w', G.alternatives n = before ++ a :: after ∧ w = u ++ w' ∧
        (∀ a' ∈ before, ¬ G.Spans (a'.symbols ++ (ss ++ k)) (u ++ (w' ++ z))) ∧
        G.Prefers a.symbols a.build u v (ss ++ k) (w' ++ z) ∧ G.Prefers ss (b v) w' r k z := by
  constructor
  · intro h
    cases h with
    | node ha hn hu hw => exact ⟨_, _, _, _, _, _, ha, rfl, hn, hu, hw⟩
  · rintro ⟨before, a, after, u, v, w', ha, rfl, hn, hu, hw⟩
    exact .node ha hn hu hw

theorem prefers_of_compose {first : Builder G.Value ss S} {next : S → Builder G.Value rest R}
    (h : G.Prefers (ss ++ rest) (Builder.compose ss first next) w r k z) :
    ∃ u v w', w = u ++ w' ∧ G.Prefers ss first u v (rest ++ k) (w' ++ z) ∧
      G.Prefers rest (next v) w' r k z := by
  induction ss generalizing w with
  | nil => exact ⟨[], first, w, rfl, .nil _, h⟩
  | cons s ss ih =>
    cases s with
    | skip t =>
      obtain ⟨x, w₁, rfl, h₁⟩ := prefers_skip.mp h
      obtain ⟨u, v, w', rfl, hu, hw⟩ := ih h₁
      exact ⟨_, v, w', (List.cons_append ..).symm, .skip hu, hw⟩
    | take t =>
      obtain ⟨x, w₁, rfl, h₁⟩ := prefers_take.mp h
      obtain ⟨u, v, w', rfl, hu, hw⟩ := ih h₁
      exact ⟨_, v, w', (List.cons_append ..).symm, .take hu, hw⟩
    | node n =>
      obtain ⟨before, a, after, p, q, w₁, ha, rfl, hn, hp, h₁⟩ := prefers_node.mp h
      obtain ⟨u, v, w', rfl, hu, hw⟩ := ih h₁
      simp only [List.append_eq, List.append_assoc] at hn hp
      exact ⟨p ++ u, v, w', (List.append_assoc ..).symm, .node ha hn hp hu, hw⟩

theorem Prefers.reads {b : Builder G.Value ss R} (h : G.Prefers ss b w r k z) :
    G.Reads ss b w r := by
  induction h with
  | nil r => exact .nil r
  | skip _ ih => exact .skip ih
  | take _ ih => exact .take ih
  | node ha _ _ _ ihu ihw => exact .node (ha ▸ by simp) ihu ihw

theorem Preferred.derives {v : G.Value n} (h : G.Preferred n w v) : G.Derives n w v := by
  obtain ⟨k, z, -, h⟩ := h
  obtain ⟨a, ha, u, v', w', rfl, hu, hw⟩ := reads_node.mp h.reads
  obtain ⟨rfl, rfl⟩ := reads_nil.mp hw
  rw [List.append_nil]
  exact ⟨a, ha, hu⟩

theorem Prefers.readsBy {b : Builder G.Value ss R} (h : G.Prefers ss b w r k z)
    (hz : G.Spans k z) : ReadsBy G.Preferred ss b w r := by
  induction ss generalizing w with
  | nil => exact prefers_nil.mp h
  | cons s ss ih =>
    cases s with
    | skip t =>
      obtain ⟨x, w', rfl, h₁⟩ := prefers_skip.mp h
      exact ⟨x, w', rfl, ih h₁⟩
    | take t =>
      obtain ⟨x, w', rfl, h₁⟩ := prefers_take.mp h
      exact ⟨x, w', rfl, ih h₁⟩
    | node n =>
      obtain ⟨before, a, after, u, v, w', ha, rfl, hn, hu, hw⟩ := prefers_node.mp h
      refine ⟨u, v, w', rfl, ⟨ss ++ k, w' ++ z, ?_, ?_⟩, ih hw⟩
      · exact spans_append.mpr ⟨w', z, rfl, hw.reads.spans, hz⟩
      · have hnode : G.Prefers [.node n] (fun v => v) (u ++ []) v (ss ++ k) (w' ++ z) :=
          .node ha hn hu (.nil v)
        rwa [List.append_nil] at hnode

/-- The first alternative that has the lexemes is taken, and within it the preferred readings of its
nonterminals. -/
theorem Preferred.exists_alternative {v : G.Value n} (h : G.Preferred n w v) :
    ∃ before a after, G.alternatives n = before ++ a :: after ∧
      (∀ a' ∈ before, ¬ G.Spans a'.symbols w) ∧ ReadsBy G.Preferred a.symbols a.build w v := by
  obtain ⟨k, z, hz, h⟩ := h
  obtain ⟨before, a, after, u, v', w', ha, rfl, hn, hu, hw⟩ := prefers_node.mp h
  obtain ⟨rfl, rfl⟩ := prefers_nil.mp hw
  rw [List.append_nil]
  refine ⟨before, a, after, ha, fun a' ha' hs => hn a' ha' ?_, hu.readsBy hz⟩
  exact spans_append.mpr ⟨u, z, rfl, hs, hz⟩

end

end Grammar

namespace Thread

variable {G : Grammar T N} {R : Type} {w : List (Lexeme T)} {r : R} {l : Lexeme T}
  {threads : List (Thread G R)}

/-- The result comes from the first thread that can be read from the lexemes, by its preferred
reading. -/
def First : List (Thread G R) → List (Lexeme T) → R → Prop
  | [], _, _ => False
  | thread :: more, w, r =>
    G.Prefers thread.stack thread.build w r [] [] ∨ ¬ G.Spans thread.stack w ∧ First more w r

theorem first_append {threads' : List (Thread G R)} :
    First (threads ++ threads') w r ↔
      First threads w r ∨ (∀ thread ∈ threads, ¬ G.Spans thread.stack w) ∧ First threads' w r := by
  induction threads with
  | nil => simp [First]
  | cons thread threads ih =>
    simp only [List.cons_append, First, ih, List.forall_mem_cons]
    grind

theorem first_flatMap {A : Type} {f : A → List (Thread G R)} {xs : List A} :
    First (xs.flatMap f) w r ↔
      ∃ before x after, xs = before ++ x :: after ∧
        (∀ y ∈ before, ∀ thread ∈ f y, ¬ G.Spans thread.stack w) ∧ First (f x) w r := by
  induction xs with
  | nil => simp [First]
  | cons x xs ih =>
    rw [List.flatMap_cons, first_append, ih]
    constructor
    · rintro (h | ⟨hx, before, y, after, rfl, hn, h⟩)
      · exact ⟨[], x, xs, rfl, by simp, h⟩
      · exact ⟨x :: before, y, after, rfl, List.forall_mem_cons.mpr ⟨hx, hn⟩, h⟩
    · rintro ⟨before, y, after, he, hn, h⟩
      cases before with
      | nil =>
        obtain ⟨rfl, rfl⟩ := List.cons.inj he
        exact .inl h
      | cons z before =>
        obtain ⟨rfl, rfl⟩ := List.cons.inj he
        rw [List.forall_mem_cons] at hn
        exact .inr ⟨hn.1, before, y, after, rfl, hn.2, h⟩

theorem First.of_filter {p : Thread G R → Bool} (h : First (threads.filter p) w r)
    (hp : ∀ thread ∈ threads, p thread = false → ¬ G.Spans thread.stack w) :
    First threads w r := by
  induction threads with
  | nil => exact h
  | cons thread threads ih =>
    rw [List.forall_mem_cons] at hp
    cases ht : p thread with
    | true =>
      rw [List.filter_cons_of_pos ht] at h
      exact h.imp_right fun h => ⟨h.1, ih h.2 hp.2⟩
    | false =>
      rw [List.filter_cons_of_neg (by simp [ht])] at h
      exact .inr ⟨hp.1 ht, ih h hp.2⟩

/-- Threads that are dropped would not have been the first. -/
theorem First.of_dedup [DecidableEq T] [DecidableEq N] (h : First (dedup threads) w r) :
    First threads w r := by
  induction threads with
  | nil => exact h
  | cons thread threads ih =>
    rcases h with h | ⟨hn, h⟩
    · exact .inl h
    · refine .inr ⟨hn, ih (h.of_filter fun other _ ho => ?_)⟩
      have he : other.stack = thread.stack := by simpa using ho
      rwa [he]

theorem IsSettled.not_spans [DecidableEq T] {thread : Thread G R} (hs : thread.IsSettled)
    (hn : thread.shift l = none) : ¬ G.Spans thread.stack (l :: w) := by
  intro h
  obtain ⟨r, hr⟩ := h.exists_reads thread.build
  obtain ⟨thread', ht⟩ := hs.exists_shift (w := w) (r := r) hr
  simp [hn] at ht

theorem prefers_of_shift [DecidableEq T] {thread thread' : Thread G R}
    (hs : thread.shift l = some thread') (h : G.Prefers thread'.stack thread'.build w r [] []) :
    G.Prefers thread.stack thread.build (l :: w) r [] [] := by
  obtain ⟨stack, build⟩ := thread
  obtain ⟨k, x⟩ := l
  match stack, build with
  | [], _ | .node _ :: _, _ => simp [shift] at hs
  | .skip t :: ss, build =>
    simp only [shift, Option.ite_none_right_eq_some, Option.some.injEq] at hs
    obtain ⟨rfl, rfl⟩ := hs
    exact .skip h
  | .take t :: ss, build =>
    simp only [shift, Option.ite_none_right_eq_some, Option.some.injEq] at hs
    obtain ⟨rfl, rfl⟩ := hs
    exact .take h

theorem spans_of_shift [DecidableEq T] {thread thread' : Thread G R}
    (hs : thread.shift l = some thread') (h : G.Spans thread.stack (l :: w)) :
    G.Spans thread'.stack w := by
  obtain ⟨r, hr⟩ := h.exists_reads thread.build
  exact ((shift_eq_some_iff hs).mp hr).spans

theorem First.of_shift [DecidableEq T] (hs : ∀ thread ∈ threads, thread.IsSettled)
    (h : First (threads.filterMap (shift l)) w r) : First threads (l :: w) r := by
  induction threads with
  | nil => exact h
  | cons thread threads ih =>
    rw [List.forall_mem_cons] at hs
    cases ht : thread.shift l with
    | none =>
      rw [List.filterMap_cons_none ht] at h
      exact .inr ⟨hs.1.not_spans ht, ih hs.2 h⟩
    | some thread' =>
      rw [List.filterMap_cons_some ht] at h
      rcases h with h | ⟨hn, h⟩
      · exact .inl (prefers_of_shift ht h)
      · exact .inr ⟨fun h' => hn (spans_of_shift ht h'), ih hs.2 h⟩

theorem first_of_findSome? (hs : ∀ thread ∈ threads, thread.IsSettled)
    (h : threads.findSome? result? = some r) : First threads [] r := by
  induction threads with
  | nil => cases h
  | cons thread threads ih =>
    rw [List.forall_mem_cons] at hs
    obtain ⟨stack, build⟩ := thread
    match stack, build with
    | [], _ =>
      obtain rfl := Option.some.inj h
      exact .inl (.nil _)
    | .node n :: ss, _ => exact absurd rfl (hs.1 n ss)
    | .skip t :: ss, _ | .take t :: ss, _ => exact .inr ⟨by simp, ih hs.2 h⟩

end Thread

namespace Grammar.Bounded

variable {G : Bounded T N} {R : Type} {w : List (Lexeme T)} {r : R} {l : Lexeme T}
  {threads : List (Thread G.toGrammar R)}

theorem not_spans_of_expand {depth : Nat} (thread : Thread G.toGrammar R)
    (hp : G.IsProper thread.stack) (hd : choices G.weight G.nullable thread.stack < depth)
    (h : ∀ thread' ∈ thread.expand depth, ¬ G.Spans thread'.stack w) :
    ¬ G.Spans thread.stack w := by
  intro hs
  obtain ⟨r, hr⟩ := hs.exists_reads thread.build
  obtain ⟨thread', hm, hy⟩ := exists_mem_expand hp hd hr
  exact h thread' hm (Reads.spans hy)

/-- The first thread among those that a thread leads to takes the first alternatives. -/
theorem prefers_of_expand {depth : Nat} {thread : Thread G.toGrammar R}
    (hp : G.IsProper thread.stack) (hd : choices G.weight G.nullable thread.stack < depth)
    (h : Thread.First (thread.expand depth) w r) :
    G.Prefers thread.stack thread.build w r [] [] := by
  induction depth generalizing thread with
  | zero => omega
  | succ depth ih =>
    obtain ⟨stack, build⟩ := thread
    match stack, build with
    | [], _ | .skip _ :: _, _ | .take _ :: _, _ => exact h.resolve_right fun h => h.2
    | .node n :: ss, build =>
      have hn : G.proper n := hp n (by simp)
      have hstep : ∀ a ∈ G.alternatives n, G.IsProper (a.symbols ++ ss) ∧
          choices G.weight G.nullable (a.symbols ++ ss) < depth := by
        intro a ha
        have hlt := G.choices_lt_weight hn ha
        have hnull := G.nullable_of_mem hn ha
        refine ⟨fun m hm => (List.mem_append.mp hm).elim (G.proper_of_mem hn ha)
          fun hm => hp m (List.mem_cons_of_mem _ hm), ?_⟩
        simp only [choices, choices_append] at hd ⊢
        cases h : a.symbols.all (·.isNullable G.nullable)
        · simp; omega
        · simp [hnull h] at hd ⊢; omega
      obtain ⟨before, a, after, ha, hb, h⟩ := Thread.first_flatMap.mp h
      have hmem : ∀ b ∈ before ++ a :: after, b ∈ G.alternatives n := fun b hb => ha ▸ hb
      obtain ⟨hpa, hda⟩ := hstep a (hmem a (by simp))
      obtain ⟨u, v, w', rfl, hu, hw⟩ := prefers_of_compose (ih hpa hda h)
      refine .node ha (fun b hbm hs => ?_) hu hw
      obtain ⟨hpb, hdb⟩ := hstep b (hmem b (List.mem_append_left _ hbm))
      rw [List.append_nil, List.append_nil] at hs
      exact not_spans_of_expand ⟨_, Builder.compose b.symbols b.build build⟩ hpb hdb
        (hb b hbm) hs

theorem first_of_frontier (hp : ∀ thread ∈ threads, G.IsProper thread.stack)
    (h : Thread.First (threads.flatMap G.frontier) w r) : Thread.First threads w r := by
  induction threads with
  | nil => exact h
  | cons thread threads ih =>
    rw [List.forall_mem_cons] at hp
    rw [List.flatMap_cons, Thread.first_append] at h
    rcases h with h | ⟨hn, h⟩
    · exact .inl (prefers_of_expand hp.1 (Nat.lt_succ_self _) h)
    · exact .inr ⟨not_spans_of_expand _ hp.1 (Nat.lt_succ_self _) hn, ih hp.2 h⟩

theorem isSettled_of_mem_frontier {settled : Thread G.toGrammar R}
    (h : settled ∈ threads.flatMap G.frontier) : settled.IsSettled := by
  obtain ⟨thread, -, hf⟩ := List.mem_flatMap.mp h
  exact Thread.isSettled_of_mem_expand hf

variable [DecidableEq T] [DecidableEq N]

theorem first_of_advance (hp : ∀ thread ∈ threads, G.IsProper thread.stack)
    (h : Thread.First (G.advance threads l) w r) : Thread.First threads (l :: w) r :=
  first_of_frontier hp (h.of_dedup.of_shift fun _ => isSettled_of_mem_frontier)

theorem first_of_survivors {tokens : List (Token T)} {last : List (Thread G.toGrammar R)}
    (hp : ∀ thread ∈ threads, G.IsProper thread.stack) (h : G.survivors threads tokens = .ok last)
    (hr : G.complete? last = some r) :
    Thread.First threads (tokens.map (·.toLexeme)) r := by
  induction tokens generalizing threads with
  | nil =>
    cases h
    exact first_of_frontier hp (Thread.first_of_findSome? (fun _ => isSettled_of_mem_frontier) hr)
  | cons token rest ih =>
    have h' : G.survivors (G.advance threads token.toLexeme) rest = .ok last := by
      rw [survivors] at h
      split at h <;> simp_all
    exact first_of_advance hp (ih (isProper_of_mem_advance hp) h')

/-- A value that the reader finds is the preferred one. -/
theorem preferred_of_survivors {n : N} (hn : G.proper n) {tokens : List (Token T)}
    {last : List (Thread G.toGrammar (G.Value n))} {v : G.Value n}
    (h : G.survivors (G.start n) tokens = .ok last) (hv : G.complete? last = some v) :
    G.Preferred n (tokens.map (·.toLexeme)) v := by
  have hf := first_of_survivors (by simp [start, IsProper, hn]) h hv
  exact ⟨[], [], rfl, hf.resolve_right fun h => h.2⟩

end Grammar.Bounded

end MemberAccess
