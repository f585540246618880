import MemberAccess.Proofs.Java.Precedence
import MemberAccess.Proofs.Java.WrittenType

/-!
# Every expression can be written

An expression of names, literals and types that can be written has a text: each operand goes into
parentheses, so nothing that stands around it can take a part of it. Backslashes in literals are
written as escapes, which are replaced by backslashes again and by nothing else.
-/

namespace MemberAccess.Java

open Nonterminal Lexer

/-- The text of the literal is one lexeme of its kind. -/
def Literal.IsWellFormed (l : Literal) : Prop :=
  ∃ k, Readable ⟨k, l.text⟩ ∧ Ebnf.Rule.literal.Image [⟨k, l.text⟩] (.expression (.literal l))

/-- The text is made of identifiers with dots between them. -/
def IsQualified (t : Text) : Prop :=
  ∃ x xs, (∀ y ∈ x :: xs, IsIdentifier y) ∧ t = Text.join "." (x :: xs)

mutual

/-- The names of classes are made of identifiers, throughout the type. -/
def ClassType.IsWellFormed : ClassType → Prop
  | .mk x as => IsQualified x ∧ TypeArgument.AllWellFormed as

def TypeArgument.IsWellFormed : TypeArgument → Prop
  | .type t | .extending t | .superOf t => t.IsWellFormed
  | .any => True

def TypeArgument.AllWellFormed : List TypeArgument → Prop
  | [] => True
  | a :: as => a.IsWellFormed ∧ TypeArgument.AllWellFormed as

def TypeExpr.IsWellFormed : TypeExpr → Prop
  | .primitive _ _ => True
  | .reference c _ => c.IsWellFormed

end

def ResultType.IsWellFormed : ResultType → Prop
  | void => True
  | type t => t.IsWellFormed

mutual

/-- Names are identifiers, literals are lexemes of their kinds, and types are types of the language,
throughout the expression. -/
def Expr.IsWellFormed : Expr → Prop
  | .literal l => l.IsWellFormed
  | .place p => p.IsWellFormed
  | .this => True
  | .classLiteral t => t.IsWellFormed
  | .call x args => IsIdentifier x ∧ Expr.AllWellFormed args
  | .invoke e x args => e.IsWellFormed ∧ IsIdentifier x ∧ Expr.AllWellFormed args
  | .new c args => c.IsWellFormed ∧ Expr.AllWellFormed args
  | .assign p e => p.IsWellFormed ∧ e.IsWellFormed
  | .binary _ l r => l.IsWellFormed ∧ r.IsWellFormed
  | .unary _ e => e.IsWellFormed
  | .cast t e => t.IsWellFormed ∧ e.IsWellFormed
  | .instanceOf e t => e.IsWellFormed ∧ t.IsWellFormed
  | .conditional c t e => c.IsWellFormed ∧ t.IsWellFormed ∧ e.IsWellFormed

def Expr.AllWellFormed : List Expr → Prop
  | [] => True
  | e :: es => e.IsWellFormed ∧ Expr.AllWellFormed es

def Place.IsWellFormed : Place → Prop
  | .named x => IsIdentifier x
  | .field e x => e.IsWellFormed ∧ IsIdentifier x
  | .element a i => a.IsWellFormed ∧ i.IsWellFormed

end

/-- Lexemes that can be read derive from the nonterminal with the value. -/
def Writable (n : Nonterminal) (v : n.Value) : Prop :=
  ∃ w, (∀ l ∈ w, Readable l) ∧ n.Derives w v

namespace Writable

variable {e e' e'' : Expr} {es : List Expr} {x : Text} {c : ClassType} {t : TypeExpr}

theorem exists_lexemes {n : Nonterminal} {vs : List n.Value} (h : ∀ v ∈ vs, Writable n v) :
    ∃ us, List.Forall₂ n.Derives us vs ∧ ∀ u ∈ us, ∀ l ∈ u, Readable l := by
  induction vs with
  | nil => exact ⟨[], .nil, by simp⟩
  | cons v vs ih =>
    rw [List.forall_mem_cons] at h
    obtain ⟨u, hu, hd⟩ := h.1
    obtain ⟨us, hus, hr⟩ := ih h.2
    exact ⟨u :: us, .cons hd hus, List.forall_mem_cons.mpr ⟨hu, hr⟩⟩

theorem readable_listed {us : List (List Lexeme)} (h : ∀ u ∈ us, ∀ l ∈ u, Readable l) :
    ∀ l ∈ listed us, Readable l := by
  cases us with
  | nil => simp [listed]
  | cons u us =>
    rw [List.forall_mem_cons] at h
    simp only [listed, List.forall_mem_append]
    exact ⟨h.1, readable_flatMap _ h.2⟩

theorem dimensions (k : Nat) : Writable dimensions k :=
  ⟨_, readable_brackets k, derives_brackets k⟩

theorem primitive (p : Primitive) : Writable primitive p :=
  ⟨_, by simpa using readable_keyword _, derives_primitive p⟩

theorem classTypePart {as : List TypeArgument} (hx : IsIdentifier x)
    (h : ∀ a ∈ as, Writable typeArgument a) : Writable classTypePart (x, as) := by
  obtain ⟨us, hus, hr⟩ := exists_lexemes (n := typeArgument) h
  exact ⟨_, List.forall_mem_cons.mpr ⟨readable_name hx, readable_inAngles hr⟩,
    classTypePart_of_forall₂ x hus⟩

/-- The arguments of a class can stand after the first part of its name. -/
theorem classType {as : List TypeArgument} (hx : IsQualified x)
    (h : ∀ a ∈ as, Writable typeArgument a) : Writable classType (.mk x as) := by
  obtain ⟨y, ys, hys, rfl⟩ := hx
  rw [List.forall_mem_cons] at hys
  obtain ⟨u, hu, hd⟩ := classTypePart hys.1 h
  have hparts : ∀ v ∈ ys.map fun y => (y, []), Writable .classTypePart v :=
    List.forall_mem_map.mpr fun z hz => classTypePart (hys.2 z hz) (by simp)
  obtain ⟨us, hus, hr⟩ := exists_lexemes (n := .classTypePart) hparts
  refine ⟨_, ?_, ofParts_cons_names y ys as ▸ classType_of_parts hd hus⟩
  simp only [List.forall_mem_append]
  exact ⟨hu, readable_flatMap _ hr⟩

theorem type_primitive (p : Primitive) (k : Nat) : Writable type (.primitive p k) := by
  obtain ⟨u, hu, hd⟩ := primitive p
  obtain ⟨w, hw, hd'⟩ := dimensions k
  exact ⟨u ++ w, List.forall_mem_append.mpr ⟨hu, hw⟩, .intro (.head _) (.node hd (.last hd' rfl))⟩

theorem type_reference (k : Nat) (h : Writable .classType c) : Writable type (.reference c k) := by
  obtain ⟨u, hu, hd⟩ := h
  obtain ⟨w, hw, hd'⟩ := dimensions k
  exact ⟨u ++ w, List.forall_mem_append.mpr ⟨hu, hw⟩,
    .intro (.tail _ (.head _)) (.node hd (.last hd' rfl))⟩

theorem typeArgument_type (h : Writable type t) : Writable typeArgument (.type t) :=
  h.imp fun _ h => ⟨h.1, .intro (.head _) (.last h.2 rfl)⟩

theorem typeArgument_any : Writable typeArgument .any :=
  ⟨[markLexeme .question], by simpa using readable_mark _, .intro (.tail _ (.head _)) (.skip (.nil _))⟩

theorem typeArgument_extending (h : Writable type t) : Writable typeArgument (.extending t) := by
  obtain ⟨w, hr, hd⟩ := h
  refine ⟨markLexeme .question :: keywordLexeme .extends_ :: w, ?_,
    .intro (.tail _ (.tail _ (.head _))) (.skip (.skip (.last hd rfl)))⟩
  simp only [List.forall_mem_cons]
  exact ⟨readable_mark _, readable_keyword _, hr⟩

theorem typeArgument_superOf (h : Writable type t) : Writable typeArgument (.superOf t) := by
  obtain ⟨w, hr, hd⟩ := h
  refine ⟨markLexeme .question :: keywordLexeme .super :: w, ?_,
    .intro (.tail _ (.tail _ (.tail _ (.head _)))) (.skip (.skip (.last hd rfl)))⟩
  simp only [List.forall_mem_cons]
  exact ⟨readable_mark _, readable_keyword _, hr⟩

theorem result_void : Writable result .void :=
  ⟨[keywordLexeme .void], by simpa using readable_keyword _, .intro (.tail _ (.head _)) (.skip (.nil _))⟩

theorem result_type (h : Writable type t) : Writable result (.type t) :=
  h.imp fun _ h => ⟨h.1, .intro (.head _) (.last h.2 rfl)⟩

theorem parenthesized (h : Writable expression e) : Writable primary e := by
  obtain ⟨w, hr, hd⟩ := h
  refine ⟨markLexeme .leftParenthesis :: (w ++ [markLexeme .rightParenthesis]), ?_, ?_⟩
  · simp only [List.forall_mem_cons, List.forall_mem_append]
    exact ⟨readable_mark _, hr, readable_mark _, by simp⟩
  · exact primary_of_atom (.intro (.tail _ (.tail _ (.tail _ (.head _))))
      (.skip (.node hd (.skip (.nil _)))))

theorem unary_of_primary (h : Writable primary e) : Writable unary e :=
  h.imp fun _ h => ⟨h.1, Nonterminal.unary_of_primary h.2⟩

theorem expression_of_unary (h : Writable unary e) : Writable expression e :=
  h.imp fun _ h => ⟨h.1, Nonterminal.expression_of_unary h.2⟩

theorem expression_of_negationOrCast (h : Writable negationOrCast e) : Writable expression e :=
  expression_of_unary (h.imp fun _ h =>
    ⟨h.1, .intro (.tail _ (.head _)) (.last (.intro (.tail _ (.head _)) (.last h.2 rfl)) rfl)⟩)

theorem expression_of_primary (h : Writable primary e) : Writable expression e :=
  h.unary_of_primary.expression_of_unary

theorem arguments (h : ∀ e ∈ es, Writable primary e) : Writable arguments es := by
  obtain ⟨us, hus, hr⟩ := exists_lexemes (n := expression) fun e he => (h e he).expression_of_primary
  refine ⟨_, ?_, derives_arguments hus⟩
  simp only [List.forall_mem_cons, List.forall_mem_append]
  exact ⟨readable_mark _, readable_listed hr, readable_mark _, by simp⟩

theorem this : Writable primary .this :=
  ⟨[keywordLexeme .this], by simpa using readable_keyword _,
    primary_of_atom (.intro (.tail _ (.tail _ (.head _))) (.skip (.nil _)))⟩

theorem call (hx : IsIdentifier x) (h : Writable .arguments es) : Writable primary (.call x es) := by
  obtain ⟨w, hr, hd⟩ := h
  refine ⟨nameLexeme x :: (w ++ []), ?_, derives_primary.mpr
    (.inr (.inl ⟨x, w, es, [], _, rfl, hd, selections_nil, rfl⟩))⟩
  rw [List.append_nil, List.forall_mem_cons]
  exact ⟨readable_name hx, hr⟩

theorem invoke (he : Writable primary e) (hx : IsIdentifier x) (h : Writable .arguments es) :
    Writable primary (.invoke e x es) := by
  obtain ⟨u, hu, hd⟩ := he
  obtain ⟨w, hw, hd'⟩ := h
  refine ⟨u ++ markLexeme .dot :: nameLexeme x :: w, ?_, primary_append hd (selections_invoke hd')⟩
  simp only [List.forall_mem_cons, List.forall_mem_append]
  exact ⟨hu, readable_mark _, readable_name hx, hw⟩

theorem new (hc : Writable .classType c) (h : Writable .arguments es) :
    Writable primary (.new c es) := by
  obtain ⟨u, hu, hd⟩ := hc
  obtain ⟨w, hw, hd'⟩ := h
  refine ⟨keywordLexeme .new :: (u ++ w), ?_, primary_of_atom (.intro (.tail _ (.tail _ (.tail _
    (.tail _ (.head _))))) (.skip (.node hd (.last hd' rfl))))⟩
  simp only [List.forall_mem_cons, List.forall_mem_append]
  exact ⟨readable_keyword _, hu, hw⟩

theorem classLiteral {t : ResultType} (h : Writable result t) : Writable primary (.classLiteral t) := by
  obtain ⟨w, hr, hd⟩ := h
  refine ⟨w ++ [markLexeme .dot, keywordLexeme .class_], ?_, primary_of_atom
    (.intro (.tail _ (.head _)) (.node hd (.skip (.skip (.nil _)))))⟩
  simp only [List.forall_mem_cons, List.forall_mem_append]
  exact ⟨hr, readable_mark _, readable_keyword _, by simp⟩

theorem binary (op : BinaryOp) (h : Writable primary e) (h' : Writable primary e') :
    Writable expression (.binary op e e') := by
  obtain ⟨u, hu, hd⟩ := h
  obtain ⟨w, hw, hd'⟩ := h'
  refine ⟨u ++ markLexeme op.mark :: w, ?_, expression_of_joined (joined_binary op
    (joined_of_unary (Nonterminal.unary_of_primary hd))
    (operand_of_unary (Nonterminal.unary_of_primary hd')))⟩
  simp only [List.forall_mem_cons, List.forall_mem_append]
  exact ⟨hu, readable_mark _, hw⟩

theorem unary (op : UnaryOp) (h : Writable primary e) : Writable expression (.unary op e) := by
  obtain ⟨w, hw, hd⟩ := h
  have hd := Nonterminal.unary_of_primary hd
  have hr : ∀ l ∈ markLexeme op.mark :: w, Readable l :=
    List.forall_mem_cons.mpr ⟨readable_mark _, hw⟩
  cases op with
  | plus => exact expression_of_unary ⟨_, hr, .intro (.head _)
      (.last (.intro (.head _) (.skip (.last hd rfl))) rfl)⟩
  | minus => exact expression_of_unary ⟨_, hr, .intro (.head _)
      (.last (.intro (.tail _ (.head _)) (.skip (.last hd rfl))) rfl)⟩
  | not => exact expression_of_negationOrCast ⟨_, hr, .intro (.head _) (.skip (.last hd rfl))⟩

theorem cast (ht : Writable type t) (h : Writable primary e) : Writable expression (.cast t e) := by
  obtain ⟨u, hu, hd⟩ := ht
  obtain ⟨w, hw, hd'⟩ := h
  refine expression_of_negationOrCast ⟨_, ?_, negationOrCast_of_type hd hd'⟩
  simp only [List.forall_mem_cons, List.forall_mem_append]
  exact ⟨readable_mark _, hu, readable_mark _, hw⟩

theorem instanceOf (h : Writable primary e) (ht : Writable type t) :
    Writable expression (.instanceOf e t) := by
  obtain ⟨u, hu, hd⟩ := h
  obtain ⟨w, hw, hd'⟩ := ht
  have ho : (operators .relational).Derives (keywordLexeme .instanceof :: (w ++ []))
      fun e => .instanceOf e t :=
    derives_operators.mpr (.inr (.inl ⟨rfl, _, w, t, [], _, rfl, hd', operators_nil _, rfl⟩))
  rw [List.append_nil] at ho
  refine ⟨_, ?_, expression_of_joined (joined_append
    (joined_of_unary (Nonterminal.unary_of_primary hd)) ho)⟩
  simp only [List.forall_mem_cons, List.forall_mem_append]
  exact ⟨hu, readable_keyword _, hw⟩

theorem conditional (h : Writable primary e) (h' : Writable primary e') (h'' : Writable primary e'') :
    Writable expression (.conditional e e' e'') := by
  obtain ⟨u, hu, hd⟩ := h
  obtain ⟨v, hv, hd'⟩ := h'.expression_of_primary
  obtain ⟨w, hw, hd''⟩ := h''
  have ht : conditionalTail.Derives (markLexeme .question :: (v ++ markLexeme .colon :: w))
      fun c => .conditional c e' e'' :=
    .intro (.head _) (.skip (.node hd' (.skip (.last
      (conditional_of_unary (Nonterminal.unary_of_primary hd'')) rfl))))
  refine ⟨_, ?_, expression_of_conditional (.intro (.head _) (.node
    (joined_of_unary (Nonterminal.unary_of_primary hd)) (.last ht rfl)))⟩
  simp only [List.forall_mem_cons, List.forall_mem_append]
  exact ⟨hu, readable_mark _, hv, readable_mark _, hw⟩

end Writable

/-- Lexemes that can be read are the place, also where a value is assigned to it. -/
def Place.IsWritable (p : Place) : Prop :=
  ∃ w, (∀ l ∈ w, Readable l) ∧ primary.Derives w (.place p) ∧
    ∀ {u : List Lexeme} {k : Place → Expr}, placeTail.Derives u k → expression.Derives (w ++ u) (k p)

namespace Place.IsWritable

variable {e e' : Expr} {x : Text} {p : Place}

theorem primary (h : p.IsWritable) : Writable primary (.place p) := h.imp fun _ h => ⟨h.1, h.2.1⟩

theorem named (hx : IsIdentifier x) : (Place.named x).IsWritable := by
  refine ⟨[nameLexeme x], by simpa using readable_name hx,
    derives_primary.mpr (.inl ⟨x, [], _, rfl, selections_nil, rfl⟩), fun {u k} hk => ?_⟩
  exact .intro (.head _) (.take (.last hk rfl))

theorem field (h : Writable .primary e) (hx : IsIdentifier x) : (Place.field e x).IsWritable := by
  obtain ⟨w, hw, hd⟩ := h
  refine ⟨w ++ [markLexeme .dot, nameLexeme x], ?_, primary_append hd (selections_field selections_nil),
    fun {u k} hk => ?_⟩
  · simp only [List.forall_mem_cons, List.forall_mem_append]
    exact ⟨hw, readable_mark _, readable_name hx, by simp⟩
  · rw [List.append_assoc]
    exact expression_of_primary (k := fun e => k (.field e x)) hd
      (.intro (.head _) (.skip (.take (.last hk rfl))))

theorem element (h : Writable .primary e) (h' : Writable .primary e') :
    (Place.element e e').IsWritable := by
  obtain ⟨w, hw, hd⟩ := h
  obtain ⟨v, hv, hd'⟩ := h'.expression_of_primary
  refine ⟨w ++ markLexeme .leftBracket :: (v ++ [markLexeme .rightBracket]), ?_, ?_,
    fun {u k} hk => ?_⟩
  · simp only [List.forall_mem_cons, List.forall_mem_append]
    exact ⟨hw, readable_mark _, hv, readable_mark _, by simp⟩
  · exact primary_append (k := fun e => .place (.element e e')) hd (.intro (.tail _ (.tail _ (.head _)))
      (.skip (.node hd' (.skip (.last selections_nil rfl)))))
  · rw [List.append_assoc, List.cons_append, List.append_assoc, List.singleton_append]
    exact expression_of_primary (k := fun e => k (.element e e')) hd (.intro (.tail _ (.tail _ (.head _)))
      (.skip (.node hd' (.skip (.last hk rfl)))))

theorem assign (h : p.IsWritable) (he : Writable .primary e) :
    Writable expression (.assign p e) := by
  obtain ⟨w, hw, -, hp⟩ := h
  obtain ⟨v, hv, hd⟩ := he.expression_of_primary
  refine ⟨w ++ markLexeme .equal :: v, ?_, hp (k := fun p => .assign p e)
    (.intro (.head _) (.skip (.last hd rfl)))⟩
  simp only [List.forall_mem_cons, List.forall_mem_append]
  exact ⟨hw, readable_mark _, hv⟩

end Place.IsWritable

mutual

theorem ClassType.writable : (c : ClassType) → c.IsWellFormed → Writable classType c
  | .mk _ as, ⟨hx, has⟩ => .classType hx (TypeArgument.forall_writable as has)

theorem TypeArgument.writable : (a : TypeArgument) → a.IsWellFormed → Writable typeArgument a
  | .type t, h => .typeArgument_type (t.writable h)
  | .any, _ => .typeArgument_any
  | .extending t, h => .typeArgument_extending (t.writable h)
  | .superOf t, h => .typeArgument_superOf (t.writable h)

theorem TypeArgument.forall_writable :
    (as : List TypeArgument) → TypeArgument.AllWellFormed as → ∀ a ∈ as, Writable typeArgument a
  | [], _ => by simp
  | a :: as, ⟨ha, has⟩ =>
    List.forall_mem_cons.mpr ⟨a.writable ha, TypeArgument.forall_writable as has⟩

theorem TypeExpr.writable : (t : TypeExpr) → t.IsWellFormed → Writable type t
  | .primitive p k, _ => .type_primitive p k
  | .reference c k, h => .type_reference k (c.writable h)

end

theorem ResultType.writable : (t : ResultType) → t.IsWellFormed → Writable result t
  | void, _ => .result_void
  | type t, h => .result_type (t.writable h)

theorem Literal.writable {l : Literal} (h : l.IsWellFormed) : Writable primary (.literal l) := by
  obtain ⟨k, hr, hi⟩ := h
  obtain ⟨e, he, hx⟩ := hi.means
  obtain rfl : Expr.literal l = e := by simpa using hx
  exact ⟨_, by simpa using hr, he⟩

mutual

/-- A well-formed expression can be written so that it can stand as an operand. -/
theorem Expr.writable : (e : Expr) → e.IsWellFormed → Writable primary e
  | .literal _, h => Literal.writable h
  | .place p, h => (p.isWritable h).primary
  | .this, _ => .this
  | .classLiteral t, h => .classLiteral (t.writable h)
  | .call _ args, ⟨hx, h⟩ => .call hx (.arguments (Expr.forall_writable args h))
  | .invoke e _ args, ⟨he, hx, h⟩ =>
    .invoke (e.writable he) hx (.arguments (Expr.forall_writable args h))
  | .new c args, ⟨hc, h⟩ => .new (c.writable hc) (.arguments (Expr.forall_writable args h))
  | .assign p e, ⟨hp, he⟩ => .parenthesized ((p.isWritable hp).assign (e.writable he))
  | .binary op l r, ⟨hl, hr⟩ => .parenthesized (.binary op (l.writable hl) (r.writable hr))
  | .unary op e, h => .parenthesized (.unary op (e.writable h))
  | .cast t e, ⟨ht, he⟩ => .parenthesized (.cast (t.writable ht) (e.writable he))
  | .instanceOf e t, ⟨he, ht⟩ => .parenthesized (.instanceOf (e.writable he) (t.writable ht))
  | .conditional c t e, ⟨hc, ht, he⟩ =>
    .parenthesized (.conditional (c.writable hc) (t.writable ht) (e.writable he))

theorem Expr.forall_writable :
    (es : List Expr) → Expr.AllWellFormed es → ∀ e ∈ es, Writable primary e
  | [], _ => by simp
  | e :: es, ⟨he, hes⟩ => List.forall_mem_cons.mpr ⟨e.writable he, Expr.forall_writable es hes⟩

theorem Place.isWritable : (p : Place) → p.IsWellFormed → p.IsWritable
  | .named _, hx => .named hx
  | .field e _, ⟨he, hx⟩ => .field (e.writable he) hx
  | .element a i, ⟨ha, hi⟩ => .element (a.writable ha) (i.writable hi)

end

/-- A well-formed expression has a text that is parsed as a method with the one statement in which the
expression is returned. -/
theorem exists_source {e : Expr} (h : e.IsWellFormed) :
    ∃ source m, parse source = .ok m ∧ m.body = some (.mk [.statement (.return_ (some e))]) := by
  obtain ⟨w, hr, hd⟩ := (e.writable h).expression_of_primary
  refine ⟨Escape.escaped (spaced (returning plainHeader w)), plainMethod.returning e,
    parse_returning isHeader_plainHeader hd ?_ (unescape_escaped _), rfl⟩
  exact List.forall_mem_append.mpr ⟨readable_of_mem_plainHeader, hr⟩

/-- A string that holds the six characters of an escape. -/
def escapeLiteral : Literal := ⟨.string, "\"\\u0041\""⟩

/-- An assignment of a cast comparison, with the string for one of its operands. -/
def castAssignment : Expr :=
  .assign (.field .this "found") (.cast (.reference (.mk "java.util.List" [.any]) 1)
    (.binary .equal (.literal escapeLiteral) (.invoke (.place (.named "s")) "trim" [])))

theorem exists_source_castAssignment :
    castAssignment.IsWellFormed ∧ ∃ source m, parse source = .ok m ∧
      m.body = some (.mk [.statement (.return_ (some castAssignment))]) := by
  have hq : Readable ⟨.string, escapeLiteral.text⟩ :=
    ⟨[], .string (isQuoted_of_quoted? (r := []) (by decide +kernel))⟩
  have hi : Ebnf.Rule.literal.Image [⟨.string, escapeLiteral.text⟩]
      (.expression (.literal escapeLiteral)) :=
    .of_rule (.tail _ (.tail _ (.tail _ (.tail _ (.tail _ (.head _)))))) rfl (.take .nil) rfl
  have hl : escapeLiteral.IsWellFormed := ⟨.string, hq, hi⟩
  have hs : IsIdentifier "s" ∧ IsIdentifier "trim" ∧ IsIdentifier "found" := by decide
  have hc : IsQualified "java.util.List" := ⟨"java", ["util", "List"], by decide, by decide⟩
  have h : castAssignment.IsWellFormed := by
    simp [castAssignment, Expr.IsWellFormed, Expr.AllWellFormed, Place.IsWellFormed,
      TypeExpr.IsWellFormed, ClassType.IsWellFormed, TypeArgument.AllWellFormed,
      TypeArgument.IsWellFormed, hl, hs, hc]
  exact ⟨h, exists_source h⟩

end MemberAccess.Java
