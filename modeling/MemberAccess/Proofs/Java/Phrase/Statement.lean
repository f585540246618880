import MemberAccess.Proofs.Java.Phrase.Expression

/-!
# Statements as phrases
-/

namespace MemberAccess.Java

open Lexer Nonterminal

namespace Phrase

variable {i : Bool} {x y z : Text} {e : Expr} {s : Statement} {b : Block}

theorem chain_of_simple {w : List Lexeme} {k : Nat} (h : simpleStatement.Derives w s) :
    (chain k).Derives w [.simple s] :=
  derives_chain.mpr (.inl ⟨w, s, [], [], (List.append_nil w).symm, h,
    derives_chainEnd.mpr (.inl ⟨rfl, rfl⟩), rfl⟩)

theorem statement (h : Phrase i simpleStatement x s) : Phrase i blockStatement x (.statement s) := by
  obtain ⟨w, hw, hd, ha⟩ := h
  exact ⟨w, hw, .intro (.tail _ (.head _)) (.last (chain_of_simple hd) rfl), ha⟩

theorem ended (h : Phrase i expression x e) : Phrase i simpleStatement (x ++ ";") (.expression e) := by
  obtain ⟨w, hw, hd, ha⟩ := h
  exact ⟨_, Fixed.semicolon.closing (by decide) hw,
    .intro (.tail _ (.tail _ (.tail _ (.tail _ (.head _))))) (.node hd (.skip (.nil _))),
    ha.append (.of_forall_ne (by decide))⟩

theorem return_ (h : Phrase i expression x e) :
    Phrase i simpleStatement ("return " ++ (x ++ ";")) (.return_ (some e)) := by
  obtain ⟨w, hw, hd, ha⟩ := h
  have hworded := Fixed.return_.opening (by decide) (Fixed.semicolon.closing (by decide) hw)
  exact ⟨_, hworded, .intro (.tail _ (.tail _ (.head _)))
      (.skip (.node (u := w) (derives_opt_some.mpr hd) (.skip (.nil _)))),
    .append (.of_forall_ne (by decide)) (ha.append (.of_forall_ne (by decide)))⟩

theorem throw (h : Phrase i expression x e) :
    Phrase i simpleStatement ("throw " ++ (x ++ ";")) (.throw_ e) := by
  obtain ⟨w, hw, hd, ha⟩ := h
  have hworded := Fixed.throw.opening (by decide) (Fixed.semicolon.closing (by decide) hw)
  exact ⟨_, hworded, .intro (.tail _ (.tail _ (.tail _ (.head _))))
      (.skip (.node (u := w) hd (.skip (.nil _)))),
    .append (.of_forall_ne (by decide)) (ha.append (.of_forall_ne (by decide)))⟩

theorem if_ (hx : Phrase i expression x e) (hy : Phrase i simpleStatement y s) :
    Phrase i blockStatement ("if (" ++ (x ++ (") " ++ y))) (.statement (.ifThen e s)) := by
  obtain ⟨u, hu, hdu, hau⟩ := hx
  obtain ⟨w, hw, hdw, haw⟩ := hy
  have hworded := Fixed.if_.opening (by decide) (Fixed.rightParenthesis.glue (by decide) hu hw)
  exact ⟨_, hworded, .intro (.tail _ (.head _)) (.last (derives_chain.mpr
      (.inr (.inl ⟨_, _, u, e, _, w, _, rfl, hdu, chain_of_simple hdw, rfl⟩))) rfl),
    .append (.of_forall_ne (by decide)) (hau.append (.append (.of_forall_ne (by decide)) haw))⟩

theorem while_ (hx : Phrase i expression x e) (hy : Phrase i simpleStatement y s) :
    Phrase i blockStatement ("while (" ++ (x ++ (") " ++ y))) (.statement (.while_ e s)) := by
  obtain ⟨u, hu, hdu, hau⟩ := hx
  obtain ⟨w, hw, hdw, haw⟩ := hy
  have hworded := Fixed.while_.opening (by decide) (Fixed.rightParenthesis.glue (by decide) hu hw)
  exact ⟨_, hworded, .intro (.tail _ (.head _)) (.last (derives_chain.mpr
      (.inr (.inr ⟨_, _, u, e, _, w, _, rfl, hdu, chain_of_simple hdw, rfl⟩))) rfl),
    .append (.of_forall_ne (by decide)) (hau.append (.append (.of_forall_ne (by decide)) haw))⟩

theorem block {ss : List BlockStatement} (before after : Text)
    (hb : before.all isSpace = true ∧ BeginsApart before)
    (ha : after.all isSpace = true ∧ EndsApart after) (h : Phrase i (many blockStatement) x ss) :
    Phrase i block ("\x7b" ++ (before ++ (x ++ (after ++ "\x7d")))) (.mk ss) := by
  obtain ⟨w, hw, hd, hu⟩ := (h.spacesAfter ha.1).spaces hb.1
  have hrest := hw.after ((ha.2.append x).append before) Fixed.rightBrace.worded
  have hworded := Fixed.leftBrace.worded.before (((hb.2.append _).append _)) hrest
  refine Phrase.congr ⟨_, hworded, .intro (.head _) (.skip (.node (u := w) hd (.skip (.nil _)))),
    .append (.of_forall_ne (by decide)) (hu.append (.of_forall_ne (by decide)))⟩
    (by simp [Fixed.leftBrace, Fixed.rightBrace])

theorem simple (h : Phrase i .block x b) : Phrase i simpleStatement x (.block b) := by
  obtain ⟨w, hw, hd, ha⟩ := h
  exact ⟨w, hw, .intro (.head _) (.last hd rfl), ha⟩

theorem catch_ {c : ClassType} (hx : Clause i classType x c) (hy : IsIdentifier y)
    (hz : Phrase i .block z b) :
    Phrase i catchClause ("catch (" ++ (x ++ (" " ++ (y ++ (") " ++ z))))) (.mk [] [c] y b) := by
  obtain ⟨u, hu, hdu, hau⟩ := hx
  obtain ⟨w, hw, hdw, haw⟩ := hz
  have hworded := Fixed.catch_.opening (by decide) (Fixed.space.glue (by decide) hu
    (Fixed.rightParenthesis.glue (by decide) (worded_name hy) hw))
  have htypes : catchTypes.Derives u [c] := by
    rw [← List.append_nil u]
    exact .intro (.head _) (.node hdu (.last Derives.nil rfl))
  exact ⟨_, hworded, .intro (.head _) (.skip (.skip (.node (u := []) .nil (.node (u := u) htypes
      (.take (.skip (.last hdw rfl))))))),
    .append (.of_forall_ne (by decide)) (.append_of_guarded hau (.inr ⟨_, rfl, by simp⟩)
      (by simp [Fixed.space]) ⟨by simp, by simp, haw⟩)⟩

theorem try_ {cs : List CatchClause} {c : CatchClause} (hx : Phrase i .block x b)
    (hy : Phrase i (many catchClause) y (c :: cs)) (hb : BeginsApart y) :
    Phrase i simpleStatement ("try " ++ (x ++ y)) (.try_ b (c :: cs) none) := by
  obtain ⟨u, hu, hdu, hau⟩ := hx
  obtain ⟨w, hw, hdw, haw⟩ := hy
  have htail : tryTail.Derives w fun b => .try_ b (c :: cs) none := by
    obtain ⟨v, w, rfl, hdv, hdw⟩ := derives_many_cons.mp hdw
    rw [← List.append_nil w]
    exact .intro (.head _) (.node hdv (.node hdw (.last (derives_opt_none.mpr rfl) rfl)))
  exact ⟨_, Fixed.try_.opening (by decide) (hu.before hb hw),
    .intro (.tail _ (.head _)) (.skip (.node (u := u) hdu (.last htail rfl))),
    .append (.of_forall_ne (by decide)) (hau.append haw)⟩

theorem declaration {t : TypeExpr} (hx : Clause i type x t) (hy : IsIdentifier y)
    (hz : Phrase i expression z e) :
    Phrase i blockStatement (x ++ (" " ++ (y ++ (" = " ++ (z ++ ";")))))
      (.declaration [] t [⟨y, 0, some e⟩]) := by
  obtain ⟨u, hu, hdu, hau⟩ := hx
  obtain ⟨w, hw, hdw, haw⟩ := hz
  have hworded := Fixed.space.glue (by decide) hu (Fixed.equal.glue (by decide) (worded_name hy)
    (Fixed.semicolon.closing (by decide) hw))
  have hdeclarator : declarator.Derives (nameLexeme y :: markLexeme .equal :: w) ⟨y, 0, some e⟩ :=
    .intro (.head _) (.take (.node (u := []) (derives_dimensions_zero.mpr rfl)
      (.last (derives_opt_some.mpr (derives_after.mpr ⟨_, w, rfl, hdw⟩)) rfl)))
  have hdeclaration : Nonterminal.declaration.Derives (u ++ nameLexeme y :: markLexeme .equal :: w)
      (.declaration [] t [⟨y, 0, some e⟩]) := by
    rw [← List.append_nil (_ :: _ :: w)]
    exact .intro (.head _) (.node (u := []) .nil (.node hdu (.node hdeclarator (.last Derives.nil rfl))))
  refine ⟨_, hworded, ?_, .append_of_guarded hau (.inr ⟨_, rfl, by simp⟩) (by simp [Fixed.space])
    ⟨by simp, by simp, haw.append (.of_forall_ne (by decide))⟩⟩
  have hstatement : blockStatement.Derives ((u ++ nameLexeme y :: markLexeme .equal :: w) ++
      [markLexeme .semicolon]) (.declaration [] t [⟨y, 0, some e⟩]) :=
    .intro (.head _) (.node hdeclaration (.skip (.nil _)))
  simpa [Fixed.space, Fixed.equal, Fixed.semicolon] using hstatement

end Phrase

end MemberAccess.Java
