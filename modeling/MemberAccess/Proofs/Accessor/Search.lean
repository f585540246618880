import MemberAccess.Proofs.Accessor.Lookup
import MemberAccess.Proofs.Java.Run

/-!
# What the search for a member does

The loop of an accessor method looks the member up in one class after the other, from the class where
the search begins up to the last one above it, until a look-up succeeds.
-/

namespace MemberAccess

open Java Java.Run

namespace Java.World

variable {Class Member Error : Type}

/-- The classes are those above the class, up to the last. -/
def IsChain (W : World Class Member Error) : Class → List Class → Prop
  | c, [] => W.superclass c = none
  | c, d :: rest => W.superclass c = some d ∧ W.IsChain d rest

/-- The look-up in the class throws an exception of the type with that name. -/
def Lacks (W : World Class Member Error) (notFound : Text) (lookUp : Class → Except Error Member)
    (c : Class) : Prop :=
  ∃ x, lookUp c = .error x ∧ W.isInstance x notFound = true

end Java.World

namespace Accessor

variable {Class Member Error : Type} {W : World Class Member Error} {names : LocalNames}
  {notFound : Text} {s s' s'' : State Class Member Error}

/-- The class is left for the one above it, or the exception is thrown on where there is none. -/
def leave (names : LocalNames) : Block :=
  .mk
    [.statement (.expression (.assign (.named names.klass)
      (.invoke (.named names.klass) "getSuperclass" []))),
     .statement (.ifThen (.binary .equal (.named names.klass) .null)
      (.throw_ (.named names.error)))]

/-- One look-up, after which a class that lacks the member is left for the one above it. -/
def attempt (names : LocalNames) (lookup : Expr) (notFound : Text) : Statement :=
  .try_ (.mk [.statement (.expression (.assign (.named names.member) lookup))])
    [.mk [] [.mk notFound []] names.error (leave names)] none

def searchLoop (names : LocalNames) (lookup : Expr) (notFound : Text) : Statement :=
  .while_ (.binary .equal (.named names.member) .null)
    (.block (.mk [.statement (attempt names lookup notFound)]))

/-- The names of a class object, of a member and of an exception are three. -/
structure Distinct (names : LocalNames) : Prop where
  klass_ne_member : names.klass ≠ names.member
  klass_ne_error : names.klass ≠ names.error
  member_ne_error : names.member ≠ names.error

/-- The search is about to look into the class. -/
structure IsAt (names : LocalNames) (c : Class) (s : State Class Member Error) : Prop where
  klass : s.values names.klass = .class_ c
  member : s.values names.member = .null

/-- From the one state to the other, the classes were looked into and nothing was assigned but the
variables for the class and the member. -/
structure Searched (names : LocalNames) (classes : List Class) (s s' : State Class Member Error) :
    Prop where
  visited : s'.visited = s.visited ++ classes
  assigned : ∃ xs ⊆ [names.klass, names.member], s'.assigned = s.assigned ++ xs
  kept : ∀ x ∉ [names.klass, names.member], s'.values x = s.values x

namespace Searched
variable {cs ds : List Class}

theorem refl (s : State Class Member Error) : Searched names [] s s :=
  ⟨(List.append_nil _).symm, ⟨[], List.nil_subset _, (List.append_nil _).symm⟩, fun _ _ => rfl⟩

theorem trans (h : Searched names cs s s') (h' : Searched names ds s' s'') :
    Searched names (cs ++ ds) s s'' := by
  obtain ⟨xs, hxs, hs⟩ := h.assigned
  obtain ⟨ys, hys, hs'⟩ := h'.assigned
  refine ⟨?_, ⟨xs ++ ys, List.append_subset.mpr ⟨hxs, hys⟩, ?_⟩,
    fun x hx => (h'.kept x hx).trans (h.kept x hx)⟩
  · rw [h'.visited, h.visited, List.append_assoc]
  · rw [hs', hs, List.append_assoc]

theorem visit (c : Class) : Searched names [c] s (s.visit c) :=
  ⟨rfl, ⟨[], List.nil_subset _, (List.append_nil _).symm⟩, fun _ _ => rfl⟩

theorem visit_assign {x : Text} (hx : x ∈ [names.klass, names.member]) (c : Class)
    (v : Value Class Member Error) : Searched names [c] s ((s.visit c).assign x v) := by
  refine ⟨rfl, ⟨[x], List.cons_subset.mpr ⟨hx, List.nil_subset _⟩, rfl⟩, fun y hy => ?_⟩
  have hne : y ≠ x := fun he => hy (he ▸ hx)
  exact Function.update_of_ne hne v s.values

end Searched

variable {c d : Class} {method : Text} {arguments : List Expr}

theorem eval_lookup (hm : method ∈ lookups) (hk : s.values names.klass = .class_ c) :
    eval W (.invoke (.named names.klass) method arguments) s =
      some ((W.lookUp c method arguments).map .member, s.visit c) := by
  have hne : method ≠ Text.ofString "getSuperclass" := by
    rintro rfl
    exact absurd hm (by decide)
  simp only [eval, hk, callOn, hne, false_and, if_false, if_pos hm]

theorem eval_superclass (hk : s.values names.klass = .class_ c) :
    eval W (.invoke (.named names.klass) "getSuperclass" []) s =
      some (.ok (.ofClass? (W.superclass c)), s) := by
  simp [eval, hk, callOn]

theorem eval_isNull {x : Text} {b : Bool} (h : (s.values x).equals? .null = some b) :
    eval W (.binary .equal (.named x) .null) s = some (.ok (.bool b), s) := by
  simp [eval, h]

section Round

theorem exec_leave {rounds : Nat} {x : Error} (hd : Distinct names)
    (hk : s.values names.klass = .class_ c) (he : s.values names.error = .error x) :
    execBlock W rounds (leave names) s =
      some (if (W.superclass c).isNone then .thrown x else .normal,
        s.assign names.klass (.ofClass? (W.superclass c))) := by
  have hklass : ∀ v, (s.assign names.klass v).values names.klass = v := fun v =>
    Function.update_self ..
  have herror : ∀ v, (s.assign names.klass v).values names.error = .error x := fun v => by
    simpa [State.assign, State.bind, Function.update_of_ne hd.klass_ne_error.symm] using he
  simp only [leave, execBlock, execAll_statement, exec_assign, eval_superclass hk, exec_ifThen]
  cases W.superclass c with
  | none =>
    simp only [Value.ofClass?, eval_isNull (b := true) (congrArg (·.equals? .null) (hklass .null)),
      branch, if_true, exec_throw _ (herror .null)]
    rfl
  | some d =>
    simp only [Value.ofClass?,
      eval_isNull (b := false) (congrArg (·.equals? .null) (hklass (.class_ d))), branch]
    rfl

variable {rounds : Nat} {x : Error} {m : Member}

variable (hm : method ∈ lookups) (hk : s.values names.klass = .class_ c)
include hm hk

theorem exec_attempt_found (hl : W.lookUp c method arguments = .ok m) :
    exec W rounds (attempt names (.invoke (.named names.klass) method arguments) notFound) s =
      some (.normal, (s.visit c).assign names.member (.member m)) := by
  simp only [attempt, exec_try, execBlock, execAll, exec_assign, eval_lookup hm hk, hl, Except.map]

/-- An exception of another type is not caught. -/
theorem exec_attempt_error (hl : W.lookUp c method arguments = .error x)
    (hx : W.isInstance x notFound = false) :
    exec W rounds (attempt names (.invoke (.named names.klass) method arguments) notFound) s =
      some (.thrown x, s.visit c) := by
  simp [attempt, exec_try, execBlock, execAll, handle, exec_assign, eval_lookup hm hk, hl,
    Except.map, hx, ClassType.name]

variable (rounds) in
/-- A class that lacks the member is left for the one above it. -/
theorem exec_attempt_missing (hd : Distinct names) (hl : W.lookUp c method arguments = .error x)
    (hx : W.isInstance x notFound = true) :
    exec W rounds (attempt names (.invoke (.named names.klass) method arguments) notFound) s =
      some (if (W.superclass c).isNone then .thrown x else .normal,
        (s.visit c).assign names.klass (.ofClass? (W.superclass c))) := by
  have hcaught : exec W rounds (attempt names (.invoke (.named names.klass) method arguments)
      notFound) s = handle W rounds x [.mk [] [.mk notFound []] names.error (leave names)]
        (s.visit c) := by
    simp only [attempt, exec_try, execBlock, execAll, exec_assign, eval_lookup hm hk, hl, Except.map]
  have hklass : ((s.visit c).bind names.error (.error x)).values names.klass = .class_ c := by
    simpa [State.bind, State.visit, Function.update_of_ne hd.klass_ne_error] using hk
  have herror : ((s.visit c).bind names.error (.error x)).values names.error = .error x :=
    Function.update_self ..
  have hback := State.bind_assign_bind (s := s.visit c) hd.klass_ne_error (.error x)
    (.ofClass? (W.superclass c))
  rw [hcaught, handle, if_pos (by simpa [ClassType.name] using hx), exec_leave hd hklass herror]
  exact congrArg (fun after => some (_, after)) hback

end Round

section Rounds

variable {rounds n : Nat} {x : Error} {m : Member} {cs : List Class}

/-- The loop of a search, for fewer than `n` more rounds. -/
def search (W : World Class Member Error) (rounds : Nat) (names : LocalNames) (lookup : Expr)
    (notFound : Text) (n : Nat) : State Class Member Error → Result Class Member Error :=
  iterate (eval W (.binary .equal (.named names.member) .null))
    (exec W rounds (.block (.mk [.statement (attempt names lookup notFound)]))) n

theorem exec_searchLoop (lookup : Expr) : exec W rounds (searchLoop names lookup notFound) s =
    search W rounds names lookup notFound rounds s := rfl

theorem search_succ {lookup : Expr} (h : s.values names.member = .null) :
    search W rounds names lookup notFound (n + 1) s =
      match exec W rounds (attempt names lookup notFound) s with
      | some (.normal, s) => search W rounds names lookup notFound n s
      | other => other := by
  rw [search, iterate, eval_isNull (b := true) (by rw [h]; rfl), branch, exec_block_singleton]
  rfl

theorem search_found {lookup : Expr} (h : s.values names.member = .member m) :
    search W rounds names lookup notFound (n + 1) s = some (.normal, s) := by
  rw [search, iterate, eval_isNull (b := false) (by rw [h]; rfl)]
  rfl

variable (hd : Distinct names) (hm : method ∈ lookups)
include hd hm

variable (rounds) in
/-- Classes that lack the member are left for those above them. -/
theorem exists_isAt {before after : List Class} (hc : W.IsChain c cs) (he : c :: cs = before ++ d :: after)
    (hs : IsAt names c s) (hl : ∀ b ∈ before, W.Lacks notFound (W.lookUp · method arguments) b) :
    ∃ s', IsAt names d s' ∧ W.IsChain d after ∧ Searched names before s s' ∧ ∀ n,
      search W rounds names (.invoke (.named names.klass) method arguments) notFound
        (before.length + n) s =
      search W rounds names (.invoke (.named names.klass) method arguments) notFound n s' := by
  induction before generalizing c cs s with
  | nil =>
    obtain ⟨rfl, rfl⟩ := List.cons.inj he
    exact ⟨s, hs, hc, .refl s, fun n => by rw [List.length_nil, Nat.zero_add]⟩
  | cons b before ih =>
    obtain ⟨rfl, hrest⟩ := List.cons.inj he
    rw [List.forall_mem_cons] at hl
    obtain ⟨⟨x, hx, hmissing⟩, hl⟩ := hl
    obtain ⟨c', cs', rfl⟩ := List.exists_cons_of_ne_nil (l := cs) (by rw [hrest]; simp)
    have hnext := exec_attempt_missing rounds hm hs.klass hd hx hmissing
    rw [hc.1] at hnext
    have hat : IsAt names c' ((s.visit c).assign names.klass (.class_ c')) :=
      ⟨Function.update_self .., by
        simpa [State.assign, State.bind, State.visit,
          Function.update_of_ne hd.klass_ne_member.symm] using hs.member⟩
    obtain ⟨s', hs', hchain, hsearched, hrun⟩ := ih hc.2 hrest hat hl
    refine ⟨s', hs', hchain, .trans (.visit_assign (by simp) c _) hsearched, fun n => ?_⟩
    rw [List.length_cons, Nat.add_right_comm, search_succ hs.member, hnext]
    exact hrun n

/-- The member is taken from the first class that has it. -/
theorem exec_searchLoop_found {before after : List Class} (hc : W.IsChain c cs)
    (he : c :: cs = before ++ d :: after) (hs : IsAt names c s)
    (hl : ∀ b ∈ before, W.Lacks notFound (W.lookUp · method arguments) b)
    (hf : W.lookUp d method arguments = .ok m) (hr : (c :: cs).length < rounds) :
    ∃ s', exec W rounds (searchLoop names (.invoke (.named names.klass) method arguments) notFound) s =
        some (.normal, s') ∧
      s'.values names.member = .member m ∧ Searched names (before ++ [d]) s s' := by
  obtain ⟨s', hs', -, hsearched, hrun⟩ := exists_isAt rounds hd hm hc he hs hl
  obtain ⟨n, rfl⟩ : ∃ n, rounds = before.length + (n + 1 + 1) := by
    rw [he, List.length_append, List.length_cons] at hr
    exact ⟨rounds - before.length - 2, by omega⟩
  have hfound : ((s'.visit d).assign names.member (.member m)).values names.member = .member m :=
    Function.update_self ..
  refine ⟨(s'.visit d).assign names.member (.member m), ?_, hfound,
    hsearched.trans (.visit_assign (by simp) d _)⟩
  rw [exec_searchLoop, hrun, search_succ hs'.member, exec_attempt_found hm hs'.klass hf]
  exact search_found hfound

/-- An exception of another type ends the search where it is thrown. -/
theorem exec_searchLoop_error {before after : List Class} (hc : W.IsChain c cs)
    (he : c :: cs = before ++ d :: after) (hs : IsAt names c s)
    (hl : ∀ b ∈ before, W.Lacks notFound (W.lookUp · method arguments) b)
    (hf : W.lookUp d method arguments = .error x) (hx : W.isInstance x notFound = false)
    (hr : (c :: cs).length < rounds) :
    ∃ s', exec W rounds (searchLoop names (.invoke (.named names.klass) method arguments) notFound) s =
        some (.thrown x, s') ∧
      s'.values names.member = .null ∧ Searched names (before ++ [d]) s s' := by
  obtain ⟨s', hs', -, hsearched, hrun⟩ := exists_isAt rounds hd hm hc he hs hl
  obtain ⟨n, rfl⟩ : ∃ n, rounds = before.length + (n + 1) := by
    rw [he, List.length_append, List.length_cons] at hr
    exact ⟨rounds - before.length - 1, by omega⟩
  refine ⟨s'.visit d, ?_, hs'.member, hsearched.trans (.visit d)⟩
  rw [exec_searchLoop, hrun, search_succ hs'.member, exec_attempt_error hm hs'.klass hf hx]

/-- Where no class has the member, the exception for the last class is thrown. -/
theorem exec_searchLoop_missing {before : List Class} (hc : W.IsChain c cs)
    (he : c :: cs = before ++ [d]) (hs : IsAt names c s)
    (hl : ∀ b ∈ before, W.Lacks notFound (W.lookUp · method arguments) b)
    (hf : W.lookUp d method arguments = .error x) (hx : W.isInstance x notFound = true)
    (hr : (c :: cs).length < rounds) :
    ∃ s', exec W rounds (searchLoop names (.invoke (.named names.klass) method arguments) notFound) s =
        some (.thrown x, s') ∧
      s'.values names.member = .null ∧ Searched names (c :: cs) s s' := by
  obtain ⟨s', hs', hlast, hsearched, hrun⟩ := exists_isAt rounds hd hm hc he hs hl
  obtain ⟨n, rfl⟩ : ∃ n, rounds = before.length + (n + 1) := by
    rw [he, List.length_append, List.length_cons] at hr
    exact ⟨rounds - before.length - 1, by omega⟩
  have hroot : W.superclass d = none := hlast
  have hmissing := exec_attempt_missing (before.length + (n + 1)) hm hs'.klass hd hf hx
  rw [hroot] at hmissing
  refine ⟨(s'.visit d).assign names.klass .null, ?_, ?_,
    he ▸ hsearched.trans (.visit_assign (by simp) d _)⟩
  · rw [exec_searchLoop, hrun, search_succ hs'.member, hmissing]
    rfl
  · simpa [State.assign, State.bind, State.visit,
      Function.update_of_ne hd.klass_ne_member.symm] using hs'.member

end Rounds

theorem distinct_of (parameters : List Parameter) : Distinct (LocalNames.of parameters) :=
  ⟨LocalNames.klass_ne_member parameters, LocalNames.klass_ne_error parameters,
    LocalNames.member_ne_error parameters⟩

namespace Target
variable {target : Target} {parameters : List Parameter}

theorem lookupCall_mem_lookups : (target.lookupCall parameters).1 ∈ lookups := by
  cases target with
  | field => exact (by decide : Text.ofString "getDeclaredField" ∈ lookups)
  | method => exact (by decide : Text.ofString "getDeclaredMethod" ∈ lookups)
  | constructor => exact (by decide : Text.ofString "getDeclaredConstructor" ∈ lookups)

end Target

/-- From the one state to the other, the classes were looked into and no parameter was assigned or
has another value. -/
structure Spares (parameters : List Parameter) (classes : List Class)
    (s s' : State Class Member Error) : Prop where
  visited : s'.visited = s.visited ++ classes
  assigned : ∃ xs, s'.assigned = s.assigned ++ xs ∧ ∀ p ∈ parameters, p.name ∉ xs
  kept : ∀ p ∈ parameters, s'.values p.name = s.values p.name

theorem Searched.spares {parameters : List Parameter} {cs : List Class}
    (h : Searched (LocalNames.of parameters) cs s s') : Spares parameters cs s s' := by
  have hfree : ∀ p ∈ parameters,
      p.name ∉ [(LocalNames.of parameters).klass, (LocalNames.of parameters).member] := by
    intro p hp hm
    have hname : p.name ∈ parameters.map (·.name) := List.mem_map_of_mem hp
    simp only [List.mem_cons, List.not_mem_nil, or_false] at hm
    rcases hm with hm | hm
    · exact LocalNames.klass_notMem parameters (hm ▸ hname)
    · exact LocalNames.member_notMem parameters (hm ▸ hname)
  obtain ⟨xs, hxs, hassigned⟩ := h.assigned
  exact ⟨h.visited, ⟨xs, hassigned, fun p hp hm => hfree p hp (hxs hm)⟩,
    fun p hp => h.kept _ (hfree p hp)⟩

/-- What a statement does if it searches for a member, from a class up to the last one above it. It
ends with the member of the first class that has one. If none has, it throws the exception for the
last class after a look-up in each. An exception of another type is thrown on at once. -/
structure IsSearch (W : World Class Member Error) (parameters : List Parameter) (notFound : Text)
    (lookUp : Class → Except Error Member) (loop : Statement) : Prop where
  found : ∀ {c d : Class} {cs before after : List Class} {m : Member} {rounds : Nat}
    {s : State Class Member Error}, W.IsChain c cs → c :: cs = before ++ d :: after →
    IsAt (LocalNames.of parameters) c s → (c :: cs).length < rounds →
    (∀ b ∈ before, W.Lacks notFound lookUp b) → lookUp d = .ok m →
    ∃ s', exec W rounds loop s = some (.normal, s') ∧
      s'.values (LocalNames.of parameters).member = .member m ∧
      Spares parameters (before ++ [d]) s s'
  missing : ∀ {c : Class} {cs : List Class} {rounds : Nat} {s : State Class Member Error},
    W.IsChain c cs → IsAt (LocalNames.of parameters) c s → (c :: cs).length < rounds →
    (∀ b ∈ c :: cs, W.Lacks notFound lookUp b) →
    ∃ d x s', (c :: cs).getLast? = some d ∧ lookUp d = .error x ∧
      exec W rounds loop s = some (.thrown x, s') ∧ Spares parameters (c :: cs) s s'
  error : ∀ {c d : Class} {cs before after : List Class} {x : Error} {rounds : Nat}
    {s : State Class Member Error}, W.IsChain c cs → c :: cs = before ++ d :: after →
    IsAt (LocalNames.of parameters) c s → (c :: cs).length < rounds →
    (∀ b ∈ before, W.Lacks notFound lookUp b) → lookUp d = .error x →
    W.isInstance x notFound = false →
    ∃ s', exec W rounds loop s = some (.thrown x, s') ∧
      s'.values (LocalNames.of parameters).member = .null ∧
      Spares parameters (before ++ [d]) s s'

theorem isSearch_searchLoop {parameters : List Parameter} (hm : method ∈ lookups) :
    IsSearch W parameters notFound (W.lookUp · method arguments) (searchLoop (LocalNames.of parameters)
      (.invoke (.named (LocalNames.of parameters).klass) method arguments) notFound) where
  found := by
    intro c d cs before after m rounds s hc he hs hr hl hf
    obtain ⟨s', hexec, hmember, hsearched⟩ :=
      exec_searchLoop_found (distinct_of parameters) hm hc he hs hl hf hr
    exact ⟨s', hexec, hmember, hsearched.spares⟩
  missing := by
    intro c cs rounds s hc hs hr hl
    obtain ⟨before, d, he⟩ : ∃ before d, c :: cs = before ++ [d] :=
      ⟨_, _, (List.dropLast_concat_getLast (List.cons_ne_nil c cs)).symm⟩
    rw [he, List.forall_mem_append, List.forall_mem_singleton] at hl
    obtain ⟨hbefore, x, hf, hx⟩ := hl
    obtain ⟨s', hexec, -, hsearched⟩ :=
      exec_searchLoop_missing (distinct_of parameters) hm hc he hs hbefore hf hx hr
    exact ⟨d, x, s', by rw [he, List.getLast?_concat], hf, hexec, hsearched.spares⟩
  error := by
    intro c d cs before after x rounds s hc he hs hr hl hf hx
    obtain ⟨s', hexec, hmember, hsearched⟩ :=
      exec_searchLoop_error (distinct_of parameters) hm hc he hs hl hf hx hr
    exact ⟨s', hexec, hmember, hsearched.spares⟩

/-- The code that finds the member can be read if and only if nothing that it quotes holds a line feed,
and what is read searches for the member by looking up what the target names. -/
theorem memberLookup_searches (W : World Class Member Error) (target : Target)
    (parameters : List Parameter) :
    ((∃ m, parse (target.lookupMethod parameters) = .ok m) ↔
      ∀ x ∈ target.quotedNames parameters, CodePoint.ofChar '\n' ∉ x) ∧
    ∀ m, parse (target.lookupMethod parameters) = .ok m →
      ∃ loop last, m.body = some (.mk [.statement loop, last]) ∧
        IsSearch W parameters target.notFound
          (W.lookUp · (target.lookupCall parameters).1 (target.lookupCall parameters).2) loop := by
  obtain ⟨hreadable, htree⟩ := target.parse_lookupMethod parameters
  refine ⟨hreadable, fun m hm => ⟨_, _, congrArg MethodDeclaration.body (htree m hm), ?_⟩⟩
  exact isSearch_searchLoop Target.lookupCall_mem_lookups

theorem memberLookup_searches_inherited :
    let W : World Bool Unit Unit :=
      ⟨fun c => if c then none else some true,
        fun
        | true, _, [.literal ⟨.string, x⟩] => if x = TypeName.quote "x" then .ok () else .error ()
        | _, _, _ => .error (),
        fun _ _ => true⟩
    let target : Target := .field .get "C" "x"
    let parameters : List Parameter := [⟨"C", "member", "C"⟩]
    let s : State Bool Unit Unit :=
      ⟨fun x => if x = "klass" then .class_ false else .null, [], []⟩
    ∃ m loop last s', parse (target.lookupMethod parameters) = .ok m ∧
      m.body = some (.mk [.statement loop, last]) ∧ exec W 3 loop s = some (.normal, s') ∧
      s'.values "member1" = .member () ∧ s'.visited = [false, true] := by
  intro W target parameters s
  obtain ⟨hparse, hsearches⟩ := memberLookup_searches W target parameters
  obtain ⟨m, hm⟩ := hparse.mpr (by decide)
  obtain ⟨loop, last, hbody, hsearch⟩ := hsearches m hm
  have hnames : LocalNames.of parameters = ⟨"klass", "member1", "e"⟩ := by decide
  have hat : IsAt (LocalNames.of parameters) false s := hnames ▸ ⟨rfl, rfl⟩
  have hchain : W.IsChain false [true] := ⟨rfl, rfl⟩
  have hlacks : ∀ b ∈ [false], W.Lacks target.notFound
      (W.lookUp · (target.lookupCall parameters).1 (target.lookupCall parameters).2) b :=
    List.forall_mem_singleton.mpr ⟨(), rfl, rfl⟩
  obtain ⟨s', hexec, hfound, hspares⟩ :=
    hsearch.found hchain (show [false, true] = [false] ++ true :: [] from rfl) hat
      (show [false, true].length < 3 by decide) hlacks rfl
  rw [hnames] at hfound
  exact ⟨m, loop, last, s', hm, hbody, hexec, hfound, hspares.visited⟩

end Accessor

end MemberAccess
