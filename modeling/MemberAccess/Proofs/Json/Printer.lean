import Mathlib.Data.List.Forall2
import MemberAccess.Json.Printer
import MemberAccess.Proofs.Json.Grammar
import MemberAccess.Proofs.Text.Digits
import MemberAccess.Proofs.Text.Join

/-!
# What printed JSON stands for

The text of a value stands for that value, its strings being known by their code units, and has ASCII
characters only.
-/

namespace MemberAccess.Json

variable {t x units before after : Text}

theorem decimal_ofNat (n : Nat) : decimal (Text.ofNat n) = n := by
  rw [decimal, Text.ofNat, List.foldl_map]
  exact (Nat.ofDigitChars_eq_foldl (b := 10)).symm.trans Nat.ofDigitChars_ten_toDigits

theorem eq_zero_of_head?_toDigits {n : Nat} {d : Char} (h : (Nat.toDigits 10 n).head? = some d)
    (hd : d = '0') : n = 0 := by
  induction n using Nat.strongRecOn with
  | ind n ih =>
    by_cases hn : n < 10
    · rw [Nat.toDigits_of_lt_base hn, List.head?_cons, Option.some.injEq] at h
      exact Nat.digitChar_eq_zero.mp (h.trans hd)
    · rw [Nat.toDigits_of_base_le (by decide) (by omega),
        List.head?_append_of_ne_nil _ Nat.toDigits_ne_nil] at h
      have := ih (n / 10) (by omega) h
      omega

theorem writtenNumber_ofNat (n : Nat) : WrittenNumber (Text.ofNat n) n where
  all_digits := List.all_eq_true.mpr fun _ => Text.isDigit_of_mem_ofNat
  ne_nil := by simp [Text.ofNat, Nat.toDigits_ne_nil]
  no_leading_zero h := by
    obtain ⟨d, hd⟩ : ∃ d, (Nat.toDigits 10 n).head? = some d :=
      Option.isSome_iff_exists.mp (by simp [Nat.toDigits_ne_nil])
    rw [Text.beginsWith, Text.ofNat, List.head?_map, hd] at h
    have hzero : d = '0' := by
      have hchar : CodePoint.ofChar d = '0' := by simpa using h
      exact Char.toNat_inj.mp (congrArg CodePoint.toNat hchar)
    rw [eq_zero_of_head?_toDigits hd hzero]
    rfl
  decimal_eq := decimal_ofNat n

theorem WrittenUnits.unitEscape {n : Nat} (hn : n < 0x10000) (h : WrittenUnits t units) :
    WrittenUnits (unitEscape n ++ t) (.ofNat n :: units) := by
  have hlen : (Text.hex 4 n).length = 4 := by rw [Text.hex_four hn]; rfl
  have hwritten := h.unit hlen (Java.Escape.number?_hex hn)
  rwa [Json.unitEscape, List.append_assoc]

theorem WrittenUnits.escapedChar (c : CodePoint) (h : WrittenUnits t units) :
    WrittenUnits (escapedChar c ++ t) (c.utf16 ++ units) := by
  have hshort : ∀ {d e : CodePoint}, shortEscapes.lookup d = some e → e.utf16 = [e] →
      WrittenUnits (CodePoint.ofChar '\\' :: d :: t) (e.utf16 ++ units) := by
    intro d e hd he
    rw [he]
    exact .short hd h
  unfold Json.escapedChar
  split
  · next hc => subst hc; exact hshort rfl rfl
  split
  · next hc => subst hc; exact hshort rfl rfl
  split
  · next hc => subst hc; exact hshort rfl rfl
  split
  · next hc => subst hc; exact hshort rfl rfl
  split
  · next hc => subst hc; exact hshort rfl rfl
  split
  · next hc => subst hc; exact hshort rfl rfl
  split
  · next hc => subst hc; exact hshort rfl rfl
  split
  · next hq hb _ _ _ _ _ hc => exact .plain hc.1 hq hb h
  split
  · next hc =>
    have hself : CodePoint.ofNat c.toNat = c := by ext; exact CodePoint.toNat_ofNat c.isLt
    rw [CodePoint.utf16, if_pos hc, List.singleton_append]
    have := h.unitEscape hc
    rwa [hself] at this
  · next hc =>
    have := c.isLt
    rw [CodePoint.utf16, if_neg hc, List.append_assoc]
    exact (h.unitEscape (by omega)).unitEscape (by omega)

theorem writtenUnits_flatMap (t : Text) : WrittenUnits (t.flatMap escapedChar) t.utf16 := by
  induction t with
  | nil => exact .nil
  | cons c t ih => exact ih.escapedChar c

theorem isBlank_lineBreak (indent level : Nat) : (lineBreak indent level).all isBlank = true := by
  simp +decide [lineBreak, Text.spaces, isBlank]

theorem Written.padded {v : Json} (hb : before.all isBlank = true) (ha : after.all isBlank = true)
    (h : Written t v) : Written (before ++ t ++ after) v := by
  have hbefore : Written (before ++ t) v := by
    induction before with
    | nil => exact h
    | cons c before ih =>
      rw [List.all_cons, Bool.and_eq_true] at hb
      exact .before hb.1 (ih hb.2)
  clear h
  generalize before ++ t = t at hbefore
  induction after generalizing t with
  | nil => rwa [List.append_nil]
  | cons c after ih =>
    rw [List.all_cons, Bool.and_eq_true] at ha
    rw [← List.singleton_append, ← List.append_assoc]
    exact ih ha.2 _ (.after ha.1 hbefore)

/-- A member as it is written, with its key and value. -/
def WrittenMember (t : Text) (m : String × Json) : Prop :=
  ∃ keyText text, t = keyText ++ ":" ++ text ∧ WrittenKey keyText m.1 ∧ Written text m.2

theorem WrittenMember.padded {m : String × Json} (hb : before.all isBlank = true)
    (ha : after.all isBlank = true) (h : WrittenMember t m) :
    WrittenMember (before ++ t ++ after) m := by
  obtain ⟨keyText, text, rfl, ⟨x, quoted, y, rfl, hx, hy, hq⟩, ht⟩ := h
  have htext : Written ([] ++ text ++ after) m.2 := ht.padded rfl ha
  refine ⟨before ++ (x ++ CodePoint.ofChar '"' :: (quoted ++ CodePoint.ofChar '"' :: y)),
    text ++ after, by simp [Text.ofString], ?_, htext⟩
  exact ⟨before ++ x, quoted, y, by simp, by rw [List.all_append, hb, hx]; rfl, hy, hq⟩

section
variable {A : Type} {P : Text → A → Prop}

/-- White space after each comma, and before and after all, belongs to the parts. -/
theorem exists_padded
    (hP : ∀ {before after t : Text} {a : A}, before.all isBlank = true →
      after.all isBlank = true → P t a → P (before ++ t ++ after) a)
    (hb : before.all isBlank = true) (ha : after.all isBlank = true) {texts : List Text}
    {as : List A} (h : List.Forall₂ P texts as) (hne : texts ≠ []) :
    ∃ padded, List.Forall₂ P padded as ∧
      before ++ Text.join ("," ++ before) texts ++ after = Text.join "," padded := by
  induction h with
  | nil => exact absurd rfl hne
  | @cons t a texts as ht hrest ih =>
    cases hrest with
    | nil => exact ⟨[before ++ t ++ after], .cons (hP hb ha ht) .nil, by simp⟩
    | cons ht' hrest =>
      obtain ⟨_, hpadded, heq⟩ := ih (by simp)
      cases hpadded with
      | cons hp hpadded =>
        refine ⟨(before ++ t ++ []) :: _, .cons (hP hb rfl ht) (.cons hp hpadded), ?_⟩
        rw [Text.join_cons_cons, Text.join_cons_cons, ← heq]
        simp

theorem exists_bracketed
    (hP : ∀ {before after t : Text} {a : A}, before.all isBlank = true →
      after.all isBlank = true → P t a → P (before ++ t ++ after) a)
    {texts : List Text} {as : List A} (h : List.Forall₂ P texts as) (hne : texts ≠ [])
    (indent level : Nat) (opening closing : Text) :
    ∃ padded, List.Forall₂ P padded as ∧
      bracketed indent level opening closing texts = opening ++ Text.join "," padded ++ closing := by
  obtain ⟨padded, hpadded, heq⟩ := exists_padded hP (isBlank_lineBreak indent (level + 1))
    (isBlank_lineBreak indent level) h hne
  refine ⟨padded, hpadded, ?_⟩
  rw [bracketed, if_neg (by simpa using hne), ← heq]
  simp only [List.append_assoc]

end

theorem Written.of_items {texts : List Text} {values : List Json}
    (h : List.Forall₂ Written texts values) (hne : values ≠ []) :
    Written ("[" ++ Text.join "," texts ++ "]") (array values) := by
  have hex : ∃ items : List Item, items.map (·.text) = texts ∧ items.map (·.value) = values ∧
      ∀ item ∈ items, Written item.text item.value := by
    clear hne
    induction h with
    | nil => exact ⟨[], rfl, rfl, by simp⟩
    | @cons t v texts values ht _ ih =>
      obtain ⟨items, rfl, rfl, hitems⟩ := ih
      exact ⟨⟨t, v⟩ :: items, rfl, rfl, List.forall_mem_cons.mpr ⟨ht, hitems⟩⟩
  obtain ⟨items, rfl, rfl, hitems⟩ := hex
  exact .items (by rintro rfl; exact hne rfl) hitems

theorem Written.of_members {texts : List Text} {ms : List (String × Json)}
    (h : List.Forall₂ WrittenMember texts ms) (hne : ms ≠ []) :
    Written ("\x7b" ++ Text.join "," texts ++ "\x7d") (object ms) := by
  have hex : ∃ members : List Member, members.map (·.whole) = texts ∧
      (members.map fun m => (m.key, m.value)) = ms ∧
      (∀ m ∈ members, WrittenKey m.keyText m.key) ∧ ∀ m ∈ members, Written m.text m.value := by
    clear hne
    induction h with
    | nil => exact ⟨[], rfl, rfl, by simp, by simp⟩
    | @cons t m texts ms ht _ ih =>
      obtain ⟨members, rfl, rfl, hkeys, hmembers⟩ := ih
      obtain ⟨keyText, text, rfl, hk, hv⟩ := ht
      exact ⟨⟨keyText, m.1, text, m.2⟩ :: members, rfl, rfl,
        List.forall_mem_cons.mpr ⟨hk, hkeys⟩, List.forall_mem_cons.mpr ⟨hv, hmembers⟩⟩
  obtain ⟨members, rfl, rfl, hkeys, hmembers⟩ := hex
  exact .members (by rintro rfl; exact hne rfl) hkeys hmembers

section
variable {texts : List Text} (indent level : Nat)

theorem Written.bracketed_items {values : List Json} (h : List.Forall₂ Written texts values) :
    Written (bracketed indent level "[" "]" texts) (array values) := by
  cases h with
  | nil => exact .noItems (t := []) rfl
  | cons ht hrest =>
    obtain ⟨padded, hpadded, heq⟩ :=
      exists_bracketed Written.padded (.cons ht hrest) (by simp) indent level "[" "]"
    rw [heq]
    exact .of_items hpadded (by simp)

theorem Written.bracketed_members {ms : List (String × Json)}
    (h : List.Forall₂ WrittenMember texts ms) :
    Written (bracketed indent level "\x7b" "\x7d" texts) (object ms) := by
  cases h with
  | nil => exact .noMembers (t := []) rfl
  | cons ht hrest =>
    obtain ⟨padded, hpadded, heq⟩ :=
      exists_bracketed WrittenMember.padded (.cons ht hrest) (by simp) indent level "\x7b" "\x7d"
    rw [heq]
    exact .of_members hpadded (by simp)

end

theorem writtenMember_printed {key : String} {v : Json} (h : Written t v) :
    WrittenMember (stringText key ++ ": " ++ t) (key, v) := by
  refine ⟨stringText key, CodePoint.ofChar ' ' :: t, by simp [Text.ofString], ?_,
    .before (by decide) h⟩
  exact ⟨[], _, [], rfl, rfl, rfl, writtenUnits_flatMap _⟩

mutual

theorem written_renderAt (indent level : Nat) : ∀ v : Json, Written (renderAt indent level v) v.utf16
  | .null => .null
  | .bool true => .true_
  | .bool false => .false_
  | .number n => .number (writtenNumber_ofNat n)
  | .string t => .string (writtenUnits_flatMap t)
  | .array items => .bracketed_items indent level (written_renderItems indent (level + 1) items)
  | .object members =>
    .bracketed_members indent level (written_renderMembers indent (level + 1) members)

theorem written_renderItems (indent level : Nat) : ∀ items : List Json,
    List.Forall₂ Written (renderItems indent level items) (itemsUtf16 items)
  | [] => .nil
  | v :: rest => .cons (written_renderAt indent level v) (written_renderItems indent level rest)

theorem written_renderMembers (indent level : Nat) : ∀ members : List (String × Json),
    List.Forall₂ WrittenMember (renderMembers indent level members) (membersUtf16 members)
  | [] => .nil
  | (_, v) :: rest =>
    .cons (writtenMember_printed (written_renderAt indent level v))
      (written_renderMembers indent level rest)

end

/-- The printed text stands for the value whose strings are known by their code units. -/
theorem written_render (indent : Nat) (v : Json) : Written (render indent v) v.utf16 :=
  written_renderAt indent 0 v

def isAscii (t : Text) : Bool := t.all (fun c => c.toNat < 0x80)

@[simp] theorem isAscii_append (t x : Text) : isAscii (t ++ x) = (isAscii t && isAscii x) :=
  List.all_append

theorem isAscii_unitEscape {n : Nat} (h : n < 0x10000) : isAscii (unitEscape n) = true := by
  have hdigit : ∀ {k : Nat}, k < 16 → k.digitChar.toNat < 0x80 := by
    intro k hk
    have hall : ∀ k : Fin 16, k.val.digitChar.toNat < 0x80 := by decide
    exact hall ⟨k, hk⟩
  have hmod : ∀ k : Nat, (k % 16).digitChar.toNat < 0x80 := fun k =>
    hdigit (Nat.mod_lt k (by decide))
  rw [unitEscape, Text.hex_four h, isAscii_append]
  simp [isAscii, hmod, hdigit (show n / 16 / 16 / 16 < 16 by omega)]
  decide

theorem isAscii_escapedChar (c : CodePoint) : isAscii (escapedChar c) = true := by
  have := c.isLt
  unfold escapedChar
  iterate 7 (split; · rfl)
  split
  · next hc => simpa [isAscii] using Nat.lt_succ_of_lt hc.2
  split
  · next hc => exact isAscii_unitEscape hc
  · rw [isAscii_append, isAscii_unitEscape (by omega), isAscii_unitEscape (by omega)]
    rfl

theorem isAscii_stringText (t : Text) : isAscii (stringText t) = true := by
  have hall : isAscii (t.flatMap escapedChar) = true := by
    rw [isAscii, List.all_flatMap]
    exact List.all_eq_true.mpr fun c _ => isAscii_escapedChar c
  have hmark : isAscii [CodePoint.ofChar '"'] = true := rfl
  rw [stringText, ← List.singleton_append, isAscii_append, isAscii_append, hall, hmark]
  rfl

theorem isAscii_bracketed {indent level : Nat} {opening closing : Text} {texts : List Text}
    (ho : isAscii opening = true) (hc : isAscii closing = true)
    (h : ∀ t ∈ texts, isAscii t = true) :
    isAscii (bracketed indent level opening closing texts) = true := by
  have hbreak : ∀ level, isAscii (lineBreak indent level) = true := by
    intro level
    simp +decide [isAscii, lineBreak, Text.spaces]
  have hjoin : isAscii (Text.join ("," ++ lineBreak indent (level + 1)) texts) = true :=
    Text.all_join (by rw [← isAscii, isAscii_append, hbreak]; rfl) h
  unfold bracketed
  split
  · rw [isAscii_append, ho, hc]
    rfl
  · simp [ho, hc, hbreak, hjoin]

mutual

theorem isAscii_renderAt (indent level : Nat) : ∀ v : Json, isAscii (renderAt indent level v) = true
  | .null => rfl
  | .bool true => rfl
  | .bool false => rfl
  | .number n => by
    refine List.all_eq_true.mpr fun c hc => ?_
    have := Text.isDigit_of_mem_ofNat hc
    simp only [CodePoint.isAsciiDigit, Bool.and_eq_true, decide_eq_true_eq] at this ⊢
    omega
  | .string t => isAscii_stringText t
  | .array items => isAscii_bracketed rfl rfl (isAscii_renderItems indent (level + 1) items)
  | .object members => isAscii_bracketed rfl rfl (isAscii_renderMembers indent (level + 1) members)

theorem isAscii_renderItems (indent level : Nat) : ∀ items : List Json,
    ∀ t ∈ renderItems indent level items, isAscii t = true
  | [] => by simp [renderItems]
  | v :: rest => by
    rw [renderItems, List.forall_mem_cons]
    exact ⟨isAscii_renderAt indent level v, isAscii_renderItems indent level rest⟩

theorem isAscii_renderMembers (indent level : Nat) : ∀ members : List (String × Json),
    ∀ t ∈ renderMembers indent level members, isAscii t = true
  | [] => by simp [renderMembers]
  | (key, v) :: rest => by
    rw [renderMembers, List.forall_mem_cons]
    refine ⟨?_, isAscii_renderMembers indent level rest⟩
    rw [isAscii_append, isAscii_append, isAscii_stringText, isAscii_renderAt]
    rfl

end

end MemberAccess.Json
