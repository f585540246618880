import MemberAccess.Proofs.Java.Derivation
import MemberAccess.Proofs.Java.Follow

/-!
# Headers of methods

What a method is called, takes and gives back is read from its beginning up to its exceptions or its
body, whatever comes after.
-/

namespace MemberAccess.Java

namespace Nonterminal

def headerPlaces : List Nonterminal :=
  headerParts.filter (fun n => n ≠ method ∧ n ≠ methodBody) ++ partsOfTypes ++ typeArgumentParts

/-- A nonterminal of a header stands where the stream is read. -/
def HeaderStands (c : Context) (n : Nonterminal) (r : List Lexeme) : Prop :=
  c = .plain ∧ n ∈ headerPlaces ∧ Stands c n r

def inHeaderPlaces (n : Nonterminal) : Symbol Terminal Nonterminal → Bool
  | .node m => inside .plain n m = .plain ∧ m ∈ headerPlaces
  | _ => true

theorem headerPlaces_closed :
    ∀ n ∈ headerPlaces, ∀ a ∈ n.alternatives, a.symbols.all (inHeaderPlaces n) := by
  decide +kernel

theorem each_headerStands {c : Context} {n : Nonterminal} {a : Alternative Terminal Value n}
    {s r : List Lexeme} (ha : a ∈ n.alternatives) (h : HeaderStands c n r) :
    grammar.Each (fun m _ r => HeaderStands (inside c n m) m r) a.symbols s r := by
  obtain ⟨rfl, hn, hs⟩ := h
  have hp : grammar.Each (fun m _ _ => inside .plain n m = .plain ∧ m ∈ headerPlaces)
      a.symbols s r := by
    refine .of_afters fun m _ hys _ _ _ => ?_
    exact of_decide_eq_true (List.all_eq_true.mp (headerPlaces_closed n hn a ha) _
      (Grammar.mem_of_mem_afters hys))
  exact (hp.and (each_stands ha hs)).mono fun _ _ _ h => ⟨h.1.1, h.1.2, h.2⟩

theorem apart_headerStands (c : Context) (n : Nonterminal) :
    n.alternatives.Pairwise
      fun a a' => grammar.Apart (fun _ r => HeaderStands c n r) a.symbols a'.symbols := by
  by_cases hc : (c, n) ∈ clashes
  · have : ∀ p ∈ clashes, p.1 = .plain → p.2 ∉ headerPlaces := by decide +kernel
    exact List.pairwise_of_forall fun _ _ _ _ _ _ _ _ _ hr _ => this _ hc hr.1 hr.2.1
  · exact pairwise_apart hc fun _ _ h => h.2.2

abbrev headerSymbols : List (Symbol Terminal Nonterminal) :=
  [.node (many modifier), .node (opt typeParameters), .node result, .take .identifier,
   .node formalParameters]

/-- A method without exceptions and body. -/
def ofHeader (modifiers : List Modifier) (typeParameters : Option (List TypeParameter))
    (result : ResultType) (name : Text) (parameters : List FormalParameter) : MethodDeclaration :=
  ⟨modifiers, typeParameters.getD [], result, name, parameters, [], none, none⟩

/-- The lexemes are read as the header of the method. -/
def IsHeader (w : List Lexeme) (m : MethodDeclaration) : Prop :=
  Grammar.ReadsBy Derives headerSymbols ofHeader w m

abbrev headerEnd : List Terminal := [.keyword .throws, .mark .leftBrace, .mark .semicolon]

theorem exists_header {w : List Lexeme} {m : MethodDeclaration} (h : method.Derives w m) :
    ∃ u r, w = u ++ r ∧ IsHeader u { m with throws := [], body := none } ∧ Heads headerEnd r := by
  rw [derives_iff] at h
  simp only [alternatives, methodAlternatives, List.mem_singleton, exists_eq_left,
    Grammar.readsBy_node, Grammar.readsBy_take, Grammar.readsBy_last] at h
  obtain ⟨u₁, ms, _, rfl, h₁, u₂, ts, _, rfl, h₂, u₃, t, _, rfl, h₃, x, _, rfl, u₄, ps, _, rfl, h₄,
    u₅, cs, u₆, rfl, h₅, b, h₆, rfl⟩ := h
  refine ⟨u₁ ++ (u₂ ++ (u₃ ++ ⟨.identifier, x⟩ :: u₄)), u₅ ++ u₆, by simp,
    .node h₁ (.node h₂ (.node h₃ (.take (.last h₄ rfl)))), ?_⟩
  exact (((firstTable.heads_of_is h₅.is).mono (by decide)).append fun _ =>
    (firstTable.heads_of_is h₆.is).mono (by decide))

theorem settled_header {n : Nonterminal} {w : List Lexeme} {v : n.Value} (h : n.Derives w v) :
    grammar.Settled (fun _ r => HeaderStands .plain n r) n w v :=
  Grammar.settled (P := fun c n _ r => HeaderStands c n r) each_headerStands apart_headerStands h
    .plain

/-- A stream has one header. -/
theorem IsHeader.unique {w w' r r' : List Lexeme} {m m' : MethodDeclaration} (h : IsHeader w m)
    (h' : IsHeader w' m') (he : w ++ r = w' ++ r') (hr : Heads headerEnd r)
    (hr' : Heads headerEnd r') : w = w' ∧ m = m' := by
  have heach : ∀ {r}, Heads headerEnd r → ∀ s,
      grammar.Each (fun n _ r => HeaderStands .plain n r) headerSymbols s r := by
    intro r hr s
    have hp : grammar.Each (fun n _ _ => n ∈ headerPlaces ∧ occurs .plain n) headerSymbols s r := by
      have hall : ∀ n, .node n ∈ headerSymbols → n ∈ headerPlaces ∧ occurs .plain n := by
        simp only [List.mem_cons, List.not_mem_nil, or_false, Symbol.node.injEq, reduceCtorEq,
          false_or]
        rintro n (rfl | rfl | rfl | rfl) <;> decide
      exact .of_afters fun n _ hys _ _ _ => hall n (Grammar.mem_of_mem_afters hys)
    have hf : firstTable.Follows (follow .plain) headerEnd headerSymbols := by decide
    exact (hp.and (Grammar.Table.each_of_follows hf hr)).mono fun _ _ _ h =>
      ⟨rfl, h.1.1, h.1.2, h.2⟩
  exact Grammar.eq_of_readsBy (h.mono fun _ _ _ h => ⟨h, settled_header h⟩) h' he
    (heach hr _) (heach hr' _)

end Nonterminal

end MemberAccess.Java
