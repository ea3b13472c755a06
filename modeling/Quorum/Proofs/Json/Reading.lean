import Mathlib.Data.List.DropRight
import Mathlib.Tactic.IntervalCases
import Quorum.Json.Printer
import Quorum.Json.Reader

set_option autoImplicit false

/-! # What is read from a text

`Reads text json` says that the reader takes the value `json` from `text`, whatever comes behind
it. There is one rule for each form of a value, so that a text can be shown to be read by the way
it is put together. The bound on the depth of the recursion shows up in no rule: the length of the
text is always enough. -/

namespace Quorum.Json

/-! ## Blanks -/

theorem skipSpace_append {blank : List Char} (hblank : ∀ c ∈ blank, isSpace c)
    (text : List Char) :
    skipSpace (blank ++ text) = skipSpace text :=
  List.dropWhile_append_of_pos hblank

theorem skipSpace_cons {c : Char} (hc : ¬ isSpace c) (text : List Char) :
    skipSpace (c :: text) = c :: text :=
  List.dropWhile_cons_of_neg hc

/-! ## Strings -/

/-- All codes are those of characters; no half of a surrogate pair is among them. -/
def Proper (codes : List Nat) : Prop := ∀ code ∈ codes, code.isValidChar

theorem toNat_ofNat {code : Nat} (h : code.isValidChar) : (Char.ofNat code).toNat = code := by
  rw [Char.ofNat, dif_pos h]
  rfl

theorem hexDigit?_hexDigit (n : Nat) (h : n < 16) : hexDigit? (hexDigit n) = some n := by
  interval_cases n <;> decide

theorem readUnits_unicodeEscape (code : Nat) (h : code < 0x10000) (text : List Char) :
    readUnits (unicodeEscape code ++ text) =
      (readUnits text).map fun (units, rest) => (code :: units, rest) := by
  have hdigits : [hexDigit (code / 0x1000 % 16), hexDigit (code / 0x100 % 16),
      hexDigit (code / 0x10 % 16), hexDigit (code % 16)].mapM hexDigit? =
      some [code / 0x1000 % 16, code / 0x100 % 16, code / 0x10 % 16, code % 16] := by
    simp [hexDigit?_hexDigit, Nat.mod_lt]
  have hvalue : 16 * (16 * (16 * (16 * 0 + code / 0x1000 % 16) + code / 0x100 % 16) +
      code / 0x10 % 16) + code % 16 = code := by omega
  simp only [unicodeEscape, List.cons_append, List.nil_append, readUnits, hdigits, List.foldl_cons,
    List.foldl_nil, hvalue]

theorem readUnits_ordinary (c : Char) (hquote : c ≠ '"') (hslash : c ≠ '\\')
    (hcontrol : 0x20 ≤ c.toNat) (text : List Char) :
    readUnits (c :: text) = (readUnits text).map fun (units, rest) => (c.toNat :: units, rest) := by
  rw [readUnits.eq_def]
  split <;> simp_all

theorem readUnits_writeCode {code : Nat} (h : code.isValidChar) (text : List Char) :
    readUnits (writeCode code ++ text) =
      (readUnits text).map fun (units, rest) => (code :: units, rest) := by
  unfold writeCode
  -- Seven characters have an escape of their own.
  iterate 7
    split
    · next hcode => subst hcode; simp [readUnits, escaped?]
  next hquote hslash _ _ _ _ _ =>
    split
    · next hescape =>
        simp only [Bool.or_eq_true, Bool.and_eq_true, decide_eq_true_eq] at hescape
        exact readUnits_unicodeEscape code (by omega) text
    · next hescape =>
        have hcode := toNat_ofNat h
        have hne (c : Char) (hc : c.toNat ≠ code) : Char.ofNat code ≠ c := by
          rintro rfl
          exact hc hcode
        have hcontrol : 0x20 ≤ code := by
          simp only [Bool.or_eq_true, Bool.and_eq_true, decide_eq_true_eq] at hescape
          omega
        rw [List.singleton_append, readUnits_ordinary _ (hne _ (Ne.symm hquote))
          (hne _ (Ne.symm hslash)) (by rwa [hcode]), hcode]

theorem readUnits_writeString {codes : List Nat} (h : Proper codes) (rest : List Char) :
    readUnits (codes.flatMap writeCode ++ '"' :: rest) = some (codes, rest) := by
  induction codes with
  | nil => simp [readUnits]
  | cons code codes ih =>
      have ⟨hcode, hcodes⟩ := List.forall_mem_cons.1 h
      rw [List.flatMap_cons, List.append_assoc, readUnits_writeCode hcode, ih hcodes]
      rfl

/-- Where no half of a surrogate pair is, there is nothing to put together. -/
theorem Proper.joinSurrogates {codes : List Nat} (h : Proper codes) :
    joinSurrogates codes = codes := by
  fun_induction Json.joinSurrogates codes with
  | case1 => rfl
  | case2 => rfl
  | case3 high low rest hpair ih =>
      have hhigh : high.isValidChar := h high (by simp)
      simp only [isHighSurrogate, Bool.and_eq_true, decide_eq_true_eq] at hpair
      unfold Nat.isValidChar at hhigh
      omega
  | case4 high low rest hpair ih => rw [ih (List.forall_mem_cons.1 h).2]

theorem readString_writeString {codes : List Nat} (h : Proper codes) (rest : List Char) :
    readString (codes.flatMap writeCode ++ '"' :: rest) = some (codes, rest) := by
  simp [readString, readUnits_writeString h, h.joinSurrogates]

/-! ## Numbers -/

/-- What does not continue a number: neither a digit nor the beginning of a fraction or an
    exponent. -/
def Stops (rest : List Char) : Prop :=
  ∀ c ∈ rest.head?, ¬ c.isDigit ∧ c ≠ '.' ∧ c ≠ 'e' ∧ c ≠ 'E'

theorem ofDigits_writeNatural (n : Nat) : ofDigits (writeNatural n) = n :=
  Nat.ofDigitChars_ten_toDigits

theorem writeNatural_ne_nil (n : Nat) : writeNatural n ≠ [] := Nat.toDigits_ne_nil

theorem isDigit_of_mem_writeNatural {n : Nat} {c : Char} (h : c ∈ writeNatural n) : c.isDigit :=
  Nat.isDigit_of_mem_toDigits (by decide) (by decide) h

theorem head?_writeNatural {n : Nat} (h : n ≠ 0) : (writeNatural n).head? ≠ some '0' := by
  unfold writeNatural
  induction n using Nat.base_induction 10 (by decide) with
  | single digit hdigit => simp [Nat.toDigits_of_lt_base hdigit, h]
  | digit tens digit hdigit htens ih =>
      rw [← Nat.toDigits_append_toDigits (by decide) htens hdigit,
        List.head?_append_of_ne_nil _ Nat.toDigits_ne_nil]
      exact ih htens.ne'

theorem readDigits_append {digits rest : List Char} (hne : digits ≠ [])
    (hdigits : ∀ c ∈ digits, c.isDigit) (hrest : Stops rest) :
    readDigits (digits ++ rest) = some (digits, rest) := by
  have hnone : ∀ c ∈ rest.head?, ¬ c.isDigit := fun c hc => (hrest c hc).1
  have htake : rest.takeWhile Char.isDigit = [] := by
    cases rest with
    | nil => rfl
    | cons c rest => exact List.takeWhile_cons_of_neg (hnone c rfl)
  have hdrop : rest.dropWhile Char.isDigit = rest := by
    cases rest with
    | nil => rfl
    | cons c rest => exact List.dropWhile_cons_of_neg (hnone c rfl)
  unfold readDigits
  rw [List.takeWhile_append_of_pos hdigits, List.dropWhile_append_of_pos hdigits, htake, hdrop,
    List.append_nil]
  split
  · contradiction
  · rfl

theorem readWhole_writeNatural (n : Nat) {rest : List Char} (hrest : Stops rest) :
    readWhole (writeNatural n ++ rest) = some (writeNatural n, rest) := by
  by_cases hzero : n = 0
  · subst hzero
    have hnone : rest.head?.any Char.isDigit = false := by
      cases rest with
      | nil => rfl
      | cons c rest => simpa using (hrest c rfl).1
    simp [writeNatural, readWhole, hnone]
  · have hhead := head?_writeNatural hzero
    have hread := readDigits_append (writeNatural_ne_nil n)
      (fun _ => isDigit_of_mem_writeNatural) hrest
    unfold readWhole
    split
    · next text hcons =>
        have hzero := congrArg List.head? hcons
        rw [List.head?_append_of_ne_nil _ (writeNatural_ne_nil n)] at hzero
        exact absurd hzero hhead
    · exact hread

theorem readFraction_of_stops {rest : List Char} (h : Stops rest) :
    readFraction rest = some ([], rest) := by
  unfold readFraction
  split
  · exact absurd rfl (h '.' rfl).2.1
  · rfl

theorem readExponent_of_stops {rest : List Char} (h : Stops rest) :
    readExponent rest = some ([], rest) := by
  unfold readExponent
  split
  · exact absurd rfl (h 'e' rfl).2.2.1
  · exact absurd rfl (h 'E' rfl).2.2.2
  · rfl

theorem readUnsigned_writeNatural (n : Nat) {rest : List Char} (hrest : Stops rest) :
    readUnsigned (writeNatural n ++ rest) = some (.natural n, rest) := by
  simp [readUnsigned, readWhole_writeNatural n hrest, readFraction_of_stops hrest,
    readExponent_of_stops hrest, ofDigits_writeNatural]

theorem readValue_of_isDigit {c : Char} (h : c.isDigit) (bound : Nat) (text : List Char) :
    readValue (bound + 1) (c :: text) = readUnsigned (c :: text) := by
  have hother : ∀ other : Char, ¬ other.isDigit → c ≠ other := by
    rintro _ hother rfl
    exact hother h
  have hspace : skipSpace (c :: text) = c :: text := by
    apply skipSpace_cons
    simp [isSpace, hother]
  rw [readValue.eq_2, hspace]
  simp [hother, readNumber]

/-! ## Values -/

/-- The value `json` is read from `text`, if what comes behind does not continue a number. -/
def Reads (text : List Char) (json : Json) : Prop :=
  ∀ bound rest, text.length ≤ bound → Stops rest →
    readValue bound (text ++ rest) = some (json, rest)

/-- The items of an array, at least one, are read from `text`, which ends with the bracket. -/
def ReadsItems (text : List Char) (items : List Json) : Prop :=
  ∀ bound rest, text.length ≤ bound → readItems bound (text ++ rest) = some (items, rest)

/-- The members of an object, at least one, are read from `text`, which ends with the brace. -/
def ReadsMembers (text : List Char) (members : List (List Nat × Json)) : Prop :=
  ∀ bound rest, text.length ≤ bound → readMembers bound (text ++ rest) = some (members, rest)

theorem stops_of_blank {blank : List Char} (hblank : ∀ c ∈ blank, isSpace c) {rest : List Char}
    (hrest : Stops rest) : Stops (blank ++ rest) := by
  cases blank with
  | nil => exact hrest
  | cons c blank =>
      have hc : isSpace c := hblank c (by simp)
      simp only [isSpace, Bool.or_eq_true, beq_iff_eq] at hc
      obtain ((rfl | rfl) | rfl) | rfl := hc <;> simp [Stops]

theorem stops_of_separator {c : Char} (hc : c ∈ [',', ']', '}']) (rest : List Char) :
    Stops (c :: rest) := by
  simp only [List.mem_cons, List.not_mem_nil, or_false] at hc
  obtain rfl | rfl | rfl := hc <;> simp [Stops]

theorem Reads.of_blank {blank text : List Char} {json : Json} (hblank : ∀ c ∈ blank, isSpace c)
    (h : Reads text json) : Reads (blank ++ text) json := by
  intro bound rest hbound hrest
  rw [← readValue_skipSpace, List.append_assoc, skipSpace_append hblank, readValue_skipSpace]
  exact h bound rest (by simp at hbound; omega) hrest

/-- Behind an item or a member there are blanks, then a comma or what closes the whole. -/
theorem Reads.before {text blank : List Char} {json : Json} (h : Reads text json)
    (hblank : ∀ c ∈ blank, isSpace c) {c : Char} (hc : c ∈ [',', ']', '}']) {bound : Nat}
    (hbound : text.length ≤ bound) (rest : List Char) :
    readValue bound (text ++ (blank ++ c :: rest)) = some (json, blank ++ c :: rest) :=
  h bound _ hbound (stops_of_blank hblank (stops_of_separator hc rest))

/-- A value that ends with its own last character is read whatever comes behind it. -/
theorem Reads.of_cons {c : Char} {text : List Char} {json : Json}
    (h : ∀ bound rest, text.length ≤ bound →
      readValue (bound + 1) (c :: (text ++ rest)) = some (json, rest)) :
    Reads (c :: text) json := by
  rintro (_ | bound) rest hbound -
  · nomatch hbound
  · exact h bound rest (Nat.le_of_succ_le_succ hbound)

theorem reads_null : Reads ['n', 'u', 'l', 'l'] .null :=
  .of_cons fun _ _ _ => rfl

theorem reads_true : Reads ['t', 'r', 'u', 'e'] (.bool true) :=
  .of_cons fun _ _ _ => rfl

theorem reads_false : Reads ['f', 'a', 'l', 's', 'e'] (.bool false) :=
  .of_cons fun _ _ _ => rfl

theorem reads_natural (n : Nat) : Reads (writeNatural n) (.natural n) := by
  intro bound rest hbound hrest
  have hread := readUnsigned_writeNatural n hrest
  cases htext : writeNatural n with
  | nil => exact absurd htext (writeNatural_ne_nil n)
  | cons c digits =>
      have hc : c.isDigit := isDigit_of_mem_writeNatural (n := n) (by simp [htext])
      rw [htext] at hbound hread
      obtain ⟨bound, rfl⟩ : ∃ smaller, bound = smaller + 1 := Nat.exists_eq_add_one.2 (by grind)
      rw [List.cons_append, readValue_of_isDigit hc]
      exact hread

theorem reads_string {codes : List Nat} (h : Proper codes) :
    Reads (writeString codes) (.string codes) :=
  .of_cons fun bound rest _ => by
    simp [readValue_quote, readString_writeString h]

theorem reads_emptyArray : Reads ['[', ']'] (.array []) :=
  .of_cons fun _ _ _ => rfl

theorem reads_emptyObject : Reads ['{', '}'] (.object []) :=
  .of_cons fun _ _ _ => rfl

/-! ### Arrays -/

/-- A closing bracket is not the beginning of an item. -/
theorem readItems_of_closing {text rest : List Char} (h : skipSpace text = ']' :: rest)
    (bound : Nat) : readItems bound text = none := by
  rw [← readItems_skipSpace, h]
  rcases bound with _ | _ | bound <;> rfl

theorem ReadsItems.array {text : List Char} {items : List Json} (h : ReadsItems text items) :
    Reads ('[' :: text) (.array items) := by
  refine .of_cons fun bound rest hbound => ?_
  have hitems : readItems bound (text ++ rest) = some (items, rest) := h bound rest hbound
  rw [readValue_bracket]
  split
  · next hclosing =>
      rw [readItems_of_closing hclosing] at hitems
      contradiction
  · simp [readItems_skipSpace, hitems]

theorem ReadsItems.last {text blank : List Char} {item : Json} (h : Reads text item)
    (hblank : ∀ c ∈ blank, isSpace c) : ReadsItems (text ++ (blank ++ [']'])) [item] := by
  rintro (_ | bound) rest hbound
  · simp at hbound
  · have hitem : readValue bound (text ++ (blank ++ ']' :: rest)) =
        some (item, blank ++ ']' :: rest) :=
      h.before hblank (by decide) (by simp at hbound; omega) rest
    simp [readItems_succ, hitem, skipSpace_append hblank, skipSpace_cons (c := ']') (by decide)]

theorem ReadsItems.cons {text blank text' : List Char} {item : Json} {items : List Json}
    (h : Reads text item) (hblank : ∀ c ∈ blank, isSpace c) (hitems : ReadsItems text' items) :
    ReadsItems (text ++ (blank ++ ',' :: text')) (item :: items) := by
  rintro (_ | bound) rest hbound
  · simp at hbound
  · simp only [List.length_append, List.length_cons] at hbound
    have hitem : readValue bound (text ++ (blank ++ ',' :: (text' ++ rest))) =
        some (item, blank ++ ',' :: (text' ++ rest)) :=
      h.before hblank (by decide) (by omega) (text' ++ rest)
    have hrest : readItems bound (text' ++ rest) = some (items, rest) :=
      hitems bound rest (by omega)
    simp [readItems_succ, hitem, hrest, skipSpace_append hblank, skipSpace_cons (c := ',') (by decide)]

/-! ### Objects -/

/-- A closing brace is not the beginning of a member. -/
theorem readMembers_of_closing {text rest : List Char} (h : skipSpace text = '}' :: rest)
    (bound : Nat) : readMembers bound text = none := by
  cases bound <;> simp [readMembers, h]

theorem ReadsMembers.object {text : List Char} {members : List (List Nat × Json)}
    (h : ReadsMembers text members) : Reads ('{' :: text) (.object members) := by
  refine .of_cons fun bound rest hbound => ?_
  have hmembers : readMembers bound (text ++ rest) = some (members, rest) := h bound rest hbound
  rw [readValue_brace]
  split
  · next hclosing =>
      rw [readMembers_of_closing hclosing] at hmembers
      contradiction
  · simp [readMembers_skipSpace, hmembers]

theorem ReadsMembers.of_blank {blank text : List Char} {members : List (List Nat × Json)}
    (hblank : ∀ c ∈ blank, isSpace c) (h : ReadsMembers text members) :
    ReadsMembers (blank ++ text) members := by
  intro bound rest hbound
  rw [← readMembers_skipSpace, List.append_assoc, skipSpace_append hblank, readMembers_skipSpace]
  exact h bound rest (by simp at hbound; omega)

theorem ReadsMembers.last {name : List Nat} {text blank : List Char} {value : Json}
    (hname : Proper name) (h : Reads text value) (hblank : ∀ c ∈ blank, isSpace c) :
    ReadsMembers (writeString name ++ ':' :: (text ++ (blank ++ ['}']))) [(name, value)] := by
  rintro (_ | bound) rest hbound
  · simp at hbound
  · have hvalue : readValue bound (text ++ (blank ++ '}' :: rest)) =
        some (value, blank ++ '}' :: rest) :=
      h.before hblank (by decide) (by simp at hbound; omega) rest
    simp [readMembers_quote, writeString, readString_writeString hname, hvalue,
      skipSpace_append hblank, skipSpace_cons, isSpace]

theorem ReadsMembers.cons {name : List Nat} {text blank text' : List Char} {value : Json}
    {members : List (List Nat × Json)} (hname : Proper name) (h : Reads text value)
    (hblank : ∀ c ∈ blank, isSpace c) (hmembers : ReadsMembers text' members) :
    ReadsMembers (writeString name ++ ':' :: (text ++ (blank ++ ',' :: text')))
      ((name, value) :: members) := by
  rintro (_ | bound) rest hbound
  · simp at hbound
  · simp only [List.length_append, List.length_cons] at hbound
    have hvalue : readValue bound (text ++ (blank ++ ',' :: (text' ++ rest))) =
        some (value, blank ++ ',' :: (text' ++ rest)) :=
      h.before hblank (by decide) (by omega) (text' ++ rest)
    have hrest : readMembers bound (text' ++ rest) = some (members, rest) :=
      hmembers bound rest (by omega)
    simp [readMembers_quote, writeString, readString_writeString hname, hvalue, hrest,
      skipSpace_append hblank, skipSpace_cons, isSpace]

/-! ### Whole texts -/

/-- A text from which a value is read holds this value. -/
theorem Reads.ofText? {text : List Char} {json : Json} (h : Reads text json) :
    ofText? text = some json := by
  have hread : readValue (2 * text.length + 2) text = some (json, []) := by
    simpa using h (2 * text.length + 2) [] (by omega) (by simp [Stops])
  simp [Json.ofText?, hread, skipSpace]

end Quorum.Json
