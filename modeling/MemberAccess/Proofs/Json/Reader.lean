import MemberAccess.Proofs.Json.Grammar
import MemberAccess.Proofs.Text.Join

/-!
# Reading JSON text

A reader of JSON text finds the value that a text stands for, so a text stands for one value only.
Each level of a value takes at least one character, which bounds the depth to be read.
-/

namespace MemberAccess.Json

/-- What stands after `start`, if the text begins so. -/
def after? (start t : Text) : Option Text :=
  if start.isPrefixOf t then some (t.drop start.length) else none

def skipBlanks (t : Text) : Text := t.dropWhile isBlank

/-- Reads a string up to and with its closing mark. -/
def readUnits? : Text → Option (Text × Text)
  | [] => none
  | c :: rest =>
    if c = '"' then some ([], rest)
    else if c = '\\' then
      match rest with
      | [] => none
      | d :: rest =>
        if d = 'u' then
          match rest with
          | d₁ :: d₂ :: d₃ :: d₄ :: rest =>
            match Java.Escape.number? [d₁, d₂, d₃, d₄] with
            | none => none
            | some n => (readUnits? rest).map fun (units, rest) => (.ofNat n :: units, rest)
          | _ => none
        else
          match shortEscapes.lookup d with
          | none => none
          | some e => (readUnits? rest).map fun (units, rest) => (e :: units, rest)
    else if c.toNat < 0x20 then none
    else (readUnits? rest).map fun (units, rest) => (c.utf16 ++ units, rest)

/-- Reads items with commas between up to and with the closing mark. -/
def readList? {A : Type} (item : Text → Option (A × Text)) (closing : CodePoint) :
    (limit : Nat) → Text → Option (List A × Text)
  | 0, _ => none
  | limit + 1, t =>
    match item t with
    | some (a, c :: rest) =>
      if c = closing then some ([a], rest)
      else if c = ',' then
        (readList? item closing limit rest).map fun (more, rest) => (a :: more, rest)
      else none
    | _ => none

/-- Reads a list that may be empty, with what the items are made into. -/
def readItems? {A : Type} (item : Text → Option (A × Text)) (closing : CodePoint) (t : Text) :
    Option (List A × Text) :=
  readList? item closing t.length t <|> (after? [closing] (skipBlanks t)).map ([], ·)

def readNumber? (t : Text) : Option (Nat × Text) :=
  let digits := t.takeWhile CodePoint.isAsciiDigit
  if digits.isEmpty || (Text.beginsWith (· == '0') digits && digits.length != 1) then none
  else some (decimal digits, t.dropWhile CodePoint.isAsciiDigit)

section
variable (value : Text → Option (Json × Text))

/-- Reads a value with the white space around it. -/
def readElement? (t : Text) : Option (Json × Text) :=
  (value (skipBlanks t)).map fun (v, rest) => (v, skipBlanks rest)

def readMember? (t : Text) : Option ((String × Json) × Text) := do
  let t ← after? "\"" (skipBlanks t)
  let (units, t) ← readUnits? t
  let t ← after? ":" (skipBlanks t)
  let (v, t) ← readElement? value t
  return ((units.toString, v), t)

end

/-- Reads a value of at most the depth. -/
def readValue? : (depth : Nat) → Text → Option (Json × Text)
  | 0, _ | _, [] => none
  | depth + 1, c :: rest =>
    if c = '"' then (readUnits? rest).map fun (units, rest) => (string units, rest)
    else if c = '[' then
      (readItems? (readElement? (readValue? depth)) ']' rest).map fun (items, rest) =>
        (array items, rest)
    else if c = '\x7b' then
      (readItems? (readMember? (readValue? depth)) '\x7d' rest).map fun (members, rest) =>
        (object members, rest)
    else if c = 'n' then (after? "ull" rest).map (null, ·)
    else if c = 't' then (after? "rue" rest).map (bool true, ·)
    else if c = 'f' then (after? "alse" rest).map (bool false, ·)
    else (readNumber? (c :: rest)).map fun (n, rest) => (number n, rest)

/-- The value that a text stands for. -/
def read? (t : Text) : Option Json :=
  match readElement? (readValue? (t.length + 1)) t with
  | some (v, []) => some v
  | _ => none

variable {t r units : Text}

@[simp] theorem after?_append (start rest : Text) : after? start (start ++ rest) = some rest := by
  simp [after?]

theorem skipBlanks_append (h : t.all isBlank = true) (rest : Text) :
    skipBlanks (t ++ rest) = skipBlanks rest := by
  induction t with
  | nil => rfl
  | cons c t ih =>
    rw [List.all_cons, Bool.and_eq_true] at h
    rw [List.cons_append, skipBlanks, List.dropWhile_cons_of_pos h.1]
    exact ih h.2

theorem skipBlanks_cons {c : CodePoint} (h : isBlank c = false) (rest : Text) :
    skipBlanks (c :: rest) = c :: rest := by
  rw [skipBlanks, List.dropWhile_cons_of_neg (by simp [h])]

theorem readUnits?_written (h : WrittenUnits t units) (r : Text) :
    readUnits? (t ++ CodePoint.ofChar '"' :: r) = some (units, r) := by
  have hm : CodePoint.ofChar '\\' ≠ '"' := by decide
  induction h with
  | nil =>
    rw [List.nil_append, readUnits?.eq_def]
    simp
  | @plain c t units hc hq hb _ ih =>
    have hle : ¬ c.toNat < 0x20 := by omega
    rw [List.cons_append, readUnits?.eq_def]
    simp [hq, hb, hle, ih]
  | @short c d t units hd _ ih =>
    have hu : c ≠ 'u' := by
      rintro rfl
      have : shortEscapes.lookup (CodePoint.ofChar 'u') = none := by decide
      rw [this] at hd
      cases hd
    rw [List.cons_append, List.cons_append, readUnits?.eq_def]
    simp [hu, hm, hd, ih]
  | @unit digits t units n hlen hn _ ih =>
    obtain ⟨d₁, d₂, d₃, d₄, rfl⟩ : ∃ d₁ d₂ d₃ d₄, digits = [d₁, d₂, d₃, d₄] := by
      match digits, hlen with
      | [d₁, d₂, d₃, d₄], _ => exact ⟨d₁, d₂, d₃, d₄, rfl⟩
    rw [List.cons_append, List.cons_append, readUnits?.eq_def]
    simp [hm, hn, ih]

theorem readNumber?_written {n : Nat} (h : WrittenNumber t n)
    (hr : Text.beginsWith CodePoint.isAsciiDigit r = false) :
    readNumber? (t ++ r) = some (n, r) := by
  have hall := List.all_eq_true.mp h.all_digits
  have htake : (t ++ r).takeWhile CodePoint.isAsciiDigit = t := by
    rw [List.takeWhile_append_of_pos hall]
    cases r with
    | nil => simp
    | cons c r => rw [List.takeWhile_cons_of_neg (by simpa [Text.beginsWith] using hr), List.append_nil]
  have hdrop : (t ++ r).dropWhile CodePoint.isAsciiDigit = r := by
    rw [List.dropWhile_append_of_pos hall]
    cases r with
    | nil => rfl
    | cons c r => rw [List.dropWhile_cons_of_neg (by simpa [Text.beginsWith] using hr)]
  have hzero : (t.isEmpty || (Text.beginsWith (· == '0') t && t.length != 1)) = false := by
    have hne : t.isEmpty = false := by simpa using h.ne_nil
    rw [hne, Bool.false_or, Bool.and_eq_false_iff]
    cases hz : Text.beginsWith (· == '0') t with
    | false => exact .inl rfl
    | true => exact .inr (by simp [h.no_leading_zero hz])
  rw [readNumber?, htake, hdrop, hzero, h.decimal_eq]
  rfl

theorem readList?_join {A B : Type} {item : Text → Option (A × Text)} {closing : CodePoint}
    {text : B → Text} {value : B → A} {items : List B} (hne : items ≠ [])
    (hc : closing ≠ ',')
    (h : ∀ b ∈ items, ∀ (c : CodePoint) (r : Text), c = ',' ∨ c = closing →
      item (text b ++ c :: r) = some (value b, c :: r)) (r : Text) {limit : Nat}
    (hl : items.length ≤ limit) :
    readList? item closing limit (Text.join "," (items.map text) ++ closing :: r) =
      some (items.map value, r) := by
  induction items generalizing limit with
  | nil => exact absurd rfl hne
  | cons b items ih =>
    obtain ⟨limit, rfl⟩ : ∃ k, limit = k + 1 := ⟨limit - 1, by simp at hl; omega⟩
    rw [List.forall_mem_cons] at h
    cases items with
    | nil => simp [readList?, h.1 closing r (.inr rfl)]
    | cons b' items =>
      have hlimit : (b' :: items).length ≤ limit := Nat.le_of_succ_le_succ hl
      have hmore := ih (by simp) h.2 hlimit
      rw [List.map_cons] at hmore
      have hcomma : CodePoint.ofChar ',' ≠ closing := Ne.symm hc
      rw [List.map_cons, List.map_cons, Text.join_cons_cons, List.append_assoc, List.append_assoc,
        readList?]
      have hb := h.1 ',' (Text.join "," (text b' :: items.map text) ++ closing :: r) (.inl rfl)
      rw [show Text.ofString "," ++ (Text.join "," (text b' :: items.map text) ++ closing :: r) =
        CodePoint.ofChar ',' :: (Text.join "," (text b' :: items.map text) ++ closing :: r) from rfl,
        hb]
      simp [hcomma, hmore]

section
variable {A : Type} {item : Text → Option (A × Text)} {closing : CodePoint}

theorem readItems?_nil (hc : isBlank closing = false) (ht : t.all isBlank = true)
    (h : item (t ++ closing :: r) = none) :
    readItems? item closing (t ++ closing :: r) = some ([], r) := by
  have hlist : ∀ limit, readList? item closing limit (t ++ closing :: r) = none := by
    intro limit
    cases limit with
    | zero => rfl
    | succ limit => rw [readList?, h]
  rw [readItems?, hlist, skipBlanks_append ht, skipBlanks_cons hc]
  simp [after?]

theorem readItems?_join {B : Type} {text : B → Text} {value : B → A} {items : List B}
    (hne : items ≠ []) (hc : closing ≠ ',')
    (h : ∀ b ∈ items, ∀ (c : CodePoint) (r : Text), c = ',' ∨ c = closing →
      item (text b ++ c :: r) = some (value b, c :: r)) (r : Text) :
    readItems? item closing (Text.join "," (items.map text) ++ closing :: r) =
      some (items.map value, r) := by
  have hl : items.length ≤ (Text.join "," (items.map text) ++ closing :: r).length := by
    have hcomma : Text.ofString "," ≠ [] := by decide
    have := Text.length_le_length_join hcomma (items.map text)
    rw [List.length_map] at this
    rw [List.length_append, List.length_cons]
    omega
  rw [readItems?, readList?_join hne hc h r hl]
  rfl

end

/-- What can come right after a value without being read as a part of it. -/
def Delimits (r : Text) : Prop := Text.beginsWith CodePoint.isAsciiDigit r = false

theorem readElement?_before {value : Text → Option (Json × Text)} {c : CodePoint}
    (hc : isBlank c = true) (t : Text) : readElement? value (c :: t) = readElement? value t := by
  rw [readElement?, skipBlanks, List.dropWhile_cons_of_pos hc]
  rfl

theorem readElement?_of_readValue? {depth : Nat} {c : CodePoint} {v : Json}
    (hc : isBlank c = false) (h : readValue? depth (c :: t) = some (v, r)) :
    readElement? (readValue? depth) (c :: t) = some (v, skipBlanks r) := by
  rw [readElement?, skipBlanks_cons hc, h]
  rfl

theorem readValue?_closing (depth : Nat) {c : CodePoint} (hc : c = ']' ∨ c = '\x7d') (t : Text) :
    readValue? depth (c :: t) = none := by
  cases depth with
  | zero => rfl
  | succ depth =>
    rcases hc with rfl | rfl <;> simp +decide [readValue?, readNumber?]

theorem ne_of_isAsciiDigit {c d : CodePoint} (h : c.isAsciiDigit = true)
    (hd : d.isAsciiDigit = false) : c ≠ d := by
  rintro rfl
  rw [hd] at h
  cases h

theorem isBlank_of_isAsciiDigit {c : CodePoint} (h : c.isAsciiDigit = true) : isBlank c = false := by
  have hne : ∀ d : CodePoint, d.isAsciiDigit = false → (c == d) = false :=
    fun d hd => beq_eq_false_iff_ne.mpr (ne_of_isAsciiDigit h hd)
  simp [isBlank, hne ' ' (by decide), hne '\t' (by decide), hne '\n' (by decide),
    hne '\r' (by decide)]

theorem Delimits.of_isBlank {c : CodePoint} (h : isBlank c = true) (r : Text) :
    Delimits (c :: r) := by
  rw [Delimits, Text.beginsWith, List.head?_cons, Option.map_some, Option.getD_some,
    Bool.eq_false_iff]
  intro hd
  rw [isBlank_of_isAsciiDigit hd] at h
  cases h

theorem readMember?_written {key : String} {v : Json} {value : Text → Option (Json × Text)}
    {keyText : Text} (hk : WrittenKey keyText key)
    (hv : readElement? value (t ++ r) = some (v, r)) :
    readMember? value (keyText ++ ":" ++ t ++ r) = some ((key, v), r) := by
  obtain ⟨before, quoted, after, rfl, hbefore, hafter, hq⟩ := hk
  have hread := readUnits?_written hq (after ++ CodePoint.ofChar ':' :: (t ++ r))
  have ht : before ++ CodePoint.ofChar '"' :: (quoted ++ CodePoint.ofChar '"' :: after) ++ ":" ++
      t ++ r = before ++ CodePoint.ofChar '"' :: (quoted ++ CodePoint.ofChar '"' ::
        (after ++ CodePoint.ofChar ':' :: (t ++ r))) := by
    simp [Text.ofString]
  have hquote : ∀ x : Text, after? "\"" (CodePoint.ofChar '"' :: x) = some x := after?_append "\""
  have hcolon : ∀ x : Text, after? ":" (CodePoint.ofChar ':' :: x) = some x := after?_append ":"
  have hb : ∀ c : CodePoint, c = '"' ∨ c = ':' → isBlank c = false := by
    rintro c (rfl | rfl) <;> decide
  rw [ht, readMember?, skipBlanks_append hbefore, skipBlanks_cons (hb _ (.inl rfl)), hquote]
  simp only [Option.bind_eq_bind, Option.bind_some, hread]
  rw [skipBlanks_append hafter, skipBlanks_cons (hb _ (.inr rfl)), hcolon]
  simp only [Option.bind_some, hv, Text.toString_utf16]
  rfl

/-- At the depth, the text is read as the value in front of anything that delimits it. -/
def IsReadAt (depth : Nat) (t : Text) (v : Json) : Prop :=
  ∀ r, Delimits r → readElement? (readValue? depth) (t ++ r) = some (v, skipBlanks r)

namespace IsReadAt
variable {depth : Nat} {v : Json}

/-- What separates the parts of a value delimits them and is no white space. -/
theorem readElement?_eq {c : CodePoint} (h : IsReadAt depth t v)
    (hc : c = ',' ∨ c = ']' ∨ c = '\x7d') (r : Text) :
    readElement? (readValue? depth) (t ++ c :: r) = some (v, c :: r) := by
  have hdelimits : isBlank c = false ∧ Delimits (c :: r) := by
    rcases hc with rfl | rfl | rfl <;> exact ⟨by decide, rfl⟩
  rw [h _ hdelimits.2, skipBlanks_cons hdelimits.1]

theorem of_readValue? {c : CodePoint} (hc : isBlank c = false)
    (h : ∀ r, Delimits r → readValue? depth (c :: (t ++ r)) = some (v, r)) :
    IsReadAt depth (c :: t) v :=
  fun r hr => readElement?_of_readValue? hc (h r hr)

theorem number {n : Nat} (h : WrittenNumber t n) : IsReadAt (depth + 1) t (number n) := by
  have hread := fun r hr => readNumber?_written (r := r) h hr
  obtain ⟨c, t, rfl⟩ := List.exists_cons_of_ne_nil h.ne_nil
  have hall := h.all_digits
  rw [List.all_cons, Bool.and_eq_true] at hall
  have hne : ∀ d : CodePoint, d.isAsciiDigit = false → c ≠ d := fun d => ne_of_isAsciiDigit hall.1
  refine of_readValue? (isBlank_of_isAsciiDigit hall.1) fun r hr => ?_
  rw [readValue?, if_neg (hne '"' (by decide)), if_neg (hne '[' (by decide)),
    if_neg (hne '\x7b' (by decide)), if_neg (hne 'n' (by decide)), if_neg (hne 't' (by decide)),
    if_neg (hne 'f' (by decide)), ← List.cons_append, hread r hr]
  rfl

theorem string {units : Text} (h : WrittenUnits t units) :
    IsReadAt (depth + 1) ('"' :: (t ++ "\"")) (string units) := by
  refine of_readValue? (by decide) fun r _ => ?_
  have ht : t ++ "\"" ++ r = t ++ CodePoint.ofChar '"' :: r := by simp [Text.ofString]
  rw [readValue?, if_pos rfl, ht, readUnits?_written h]
  rfl

theorem array {items : List Json} (h : ∀ r,
    readItems? (readElement? (readValue? depth)) ']' (t ++ CodePoint.ofChar ']' :: r) =
      some (items, r)) : IsReadAt (depth + 1) ("[" ++ t ++ "]") (array items) := by
  refine of_readValue? (c := '[') (t := t ++ "]") (by decide) fun r _ => ?_
  have ht : t ++ "]" ++ r = t ++ CodePoint.ofChar ']' :: r := by simp [Text.ofString]
  rw [readValue?, if_neg (by decide), if_pos rfl, ht, h]
  rfl

theorem object {members : List (String × Json)} (h : ∀ r,
    readItems? (readMember? (readValue? depth)) '\x7d' (t ++ CodePoint.ofChar '\x7d' :: r) =
      some (members, r)) : IsReadAt (depth + 1) ("\x7b" ++ t ++ "\x7d") (object members) := by
  refine of_readValue? (c := '\x7b') (t := t ++ "\x7d") (by decide) fun r _ => ?_
  have ht : t ++ "\x7d" ++ r = t ++ CodePoint.ofChar '\x7d' :: r := by simp [Text.ofString]
  rw [readValue?, if_neg (by decide), if_neg (by decide), if_pos rfl, ht, h]
  rfl

theorem noItems (ht : t.all isBlank = true) : IsReadAt (depth + 1) ("[" ++ t ++ "]") (.array []) := by
  refine array fun r => readItems?_nil (by decide) ht ?_
  rw [readElement?, skipBlanks_append ht, skipBlanks_cons (by decide),
    readValue?_closing _ (.inl rfl)]
  rfl

theorem items {items : List Item} (hne : items ≠ [])
    (h : ∀ item ∈ items, IsReadAt depth item.text item.value) :
    IsReadAt (depth + 1) ("[" ++ Text.join "," (items.map (·.text)) ++ "]")
      (.array (items.map (·.value))) :=
  array (readItems?_join hne (by decide) fun item hi _ r hc =>
    (h item hi).readElement?_eq (hc.imp_right .inl) r)

theorem noMembers (ht : t.all isBlank = true) :
    IsReadAt (depth + 1) ("\x7b" ++ t ++ "\x7d") (.object []) := by
  refine object fun r => readItems?_nil (by decide) ht ?_
  rw [readMember?, skipBlanks_append ht, skipBlanks_cons (by decide)]
  rfl

theorem members {members : List Member} (hne : members ≠ [])
    (hk : ∀ m ∈ members, WrittenKey m.keyText m.key)
    (h : ∀ m ∈ members, IsReadAt depth m.text m.value) :
    IsReadAt (depth + 1) ("\x7b" ++ Text.join "," (members.map (·.whole)) ++ "\x7d")
      (.object (members.map fun m => (m.key, m.value))) :=
  object (readItems?_join hne (by decide) fun m hm _ r hc =>
    readMember?_written (hk m hm) ((h m hm).readElement?_eq (hc.imp_right .inr) r))

end IsReadAt

/-- The reader finds the value that a text stands for. -/
theorem Written.isReadAt {v : Json} (h : Written t v) {depth : Nat} (hd : t.length < depth) :
    IsReadAt depth t v := by
  obtain ⟨depth, rfl⟩ : ∃ k, depth = k + 1 := ⟨depth - 1, by omega⟩
  induction h generalizing depth with
  | null => exact .of_readValue? (c := 'n') (t := "ull") (by decide) (by simp +decide [readValue?])
  | true_ => exact .of_readValue? (c := 't') (t := "rue") (by decide) (by simp +decide [readValue?])
  | false_ => exact .of_readValue? (c := 'f') (t := "alse") (by decide) (by simp +decide [readValue?])
  | number h => exact .number h
  | string h => exact .string h
  | noItems ht => exact .noItems ht
  | @items items hne _ ih =>
    refine .items hne fun item hi => ?_
    -- The brackets around the items leave room for one more level.
    have hlen : item.text.length ≤ (Text.join "," (items.map (·.text))).length :=
      Text.length_le_join (List.mem_map_of_mem hi) _
    rw [List.length_append, List.length_append] at hd
    have hbrackets : (Text.ofString "[").length = 1 ∧ (Text.ofString "]").length = 1 := ⟨rfl, rfl⟩
    obtain ⟨k, rfl⟩ : ∃ k, depth = k + 1 := ⟨depth - 1, by omega⟩
    exact ih item hi k (by omega)
  | noMembers ht => exact .noMembers ht
  | @members members hne hk _ ih =>
    refine .members hne hk fun m hm => ?_
    have hlen : m.whole.length ≤ (Text.join "," (members.map (·.whole))).length :=
      Text.length_le_join (List.mem_map_of_mem hm) _
    rw [Member.whole, List.length_append] at hlen
    rw [List.length_append, List.length_append] at hd
    have hbraces : (Text.ofString "\x7b").length = 1 ∧ (Text.ofString "\x7d").length = 1 := ⟨rfl, rfl⟩
    obtain ⟨k, rfl⟩ : ∃ k, depth = k + 1 := ⟨depth - 1, by omega⟩
    exact ih m hm k (by omega)
  | before hc _ ih =>
    intro r hr
    rw [List.cons_append, readElement?_before hc]
    exact ih depth (by rw [List.length_cons] at hd; omega) r hr
  | @after c t v hc _ ih =>
    intro r _
    have hread := ih depth (by rw [List.length_append] at hd; omega) (c :: r) (.of_isBlank hc r)
    rw [List.append_assoc, List.singleton_append, hread, skipBlanks, List.dropWhile_cons_of_pos hc]
    rfl

/-- A text stands for no other value than the reader finds. -/
theorem read?_written {v : Json} (h : Written t v) : read? t = some v := by
  have hread := h.isReadAt (Nat.lt_succ_self _) [] rfl
  rw [List.append_nil] at hread
  rw [read?, hread]
  rfl

theorem Written.unique {v v' : Json} (h : Written t v) (h' : Written t v') : v = v' :=
  Option.some.inj ((read?_written h).symm.trans (read?_written h'))

end MemberAccess.Json
