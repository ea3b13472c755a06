import Quorum.KeyValue.Command
import Quorum.Proofs.Text.Words

set_option autoImplicit false

/-! # Commands that survive being written

Writing a command puts its parts one after the other, whatever they are, and reading takes a line
apart at its blanks. So a command is read back from what was written if and only if its key is one
word and its value is trimmed, both of the right length. What is read is always such a command.

There are many other lines from which the same command is read: those that `Command.Spelled` lists,
with any blanks around the parts and a verb in any mixture of cases. -/

namespace Quorum.KeyValue

open Quorum.Text

/-! ## Proper commands -/

/-- A key: one word of at most 256 characters. -/
structure IsKey (key : String) : Prop where
  ne_nil : key.toList ≠ []
  unbroken : Unbroken key.toList
  length_le : key.toList.length ≤ 256

/-- A value: at most 256 characters, of which the first and the last are not blank. -/
structure IsValue (value : String) : Prop where
  ne_nil : value.toList ≠ []
  trimmed : Trimmed value.toList
  length_le : value.toList.length ≤ 256

/-- A command whose parts are a key and a value. -/
def Command.IsProper : Command → Prop
  | .set key value => IsKey key ∧ IsValue value
  | .delete key => IsKey key

/-- A trimmed field is complained about if and only if it is empty or too long. -/
theorem fieldFault?_eq_none_iff (name : String) {field : String} (h : Trimmed field.toList) :
    fieldFault? name field = none ↔ field.toList ≠ [] ∧ field.toList.length ≤ 256 := by
  unfold fieldFault?
  rw [h.trim_eq]
  by_cases hnil : field.toList = []
  · simp [hnil]
  · by_cases hlong : maxFieldLength < field.toList.length
    · simp [hnil, hlong, show ¬ field.toList.length ≤ 256 from Nat.not_le.2 hlong]
    · simp [hnil, hlong, show field.toList.length ≤ 256 from Nat.not_lt.1 hlong]

theorem IsKey.fault?_eq_none {key : String} (h : IsKey key) (name : String) :
    fieldFault? name key = none :=
  (fieldFault?_eq_none_iff name h.unbroken.trimmed).2 ⟨h.ne_nil, h.length_le⟩

theorem IsValue.fault?_eq_none {value : String} (h : IsValue value) (name : String) :
    fieldFault? name value = none :=
  (fieldFault?_eq_none_iff name h.trimmed).2 ⟨h.ne_nil, h.length_le⟩

theorem Command.fault?_set_eq_none_iff (key value : String) :
    (Command.set key value).fault? = none ↔
      fieldFault? "key" key = none ∧ fieldFault? "value" value = none := by
  unfold Command.fault?
  cases hkey : fieldFault? "key" key <;> simp [hkey]

/-! ## What is read is proper -/

/-- What is trimmed of a text with at most one word is this word. -/
theorem unbroken_trim {text : List Char} (h : hasSecondWord text = false) :
    Unbroken (trim text) := by
  have hblanks : ∀ c ∈ (trimStart text).dropWhile (!isBlank ·), isBlank c := by
    simpa [hasSecondWord] using h
  have hword : Unbroken (firstWord (trimStart text)) := unbroken_firstWord _
  have hsplit : trimStart text =
      firstWord (trimStart text) ++ (trimStart text).dropWhile (!isBlank ·) :=
    List.takeWhile_append_dropWhile.symm
  unfold trim
  rw [hsplit, trimEnd_append hblanks, trimEnd_of_last hword.trimmed.2]
  exact hword

/-- The two ways in which words are read as a command. -/
theorem Command.ofWords_cases {verb rest : List Char} {command : Command}
    (h : Command.ofWords verb rest = .ok command) :
    (verb.map Char.toUpper = "SET".toList ∧
      command = .set (String.ofList (firstWord rest))
        (String.ofList (trim (afterFirstBlank rest)))) ∨
    (verb.map Char.toUpper = "DEL".toList ∧ hasSecondWord rest = false ∧
      command = .delete (String.ofList (trim rest))) := by
  unfold Command.ofWords at h
  simp only at h
  split at h
  · next hverb =>
    cases h
    exact Or.inl ⟨hverb, rfl⟩
  · split at h
    · next hverb =>
      split at h
      · cases h
      · next hsecond =>
        cases h
        exact Or.inr ⟨hverb, Bool.eq_false_iff.2 hsecond, rfl⟩
    · cases h

/-- The parts that a line is taken apart into are trimmed, and a key has no blank in it. -/
theorem Command.ofWords_parts {verb rest : List Char} {command : Command}
    (h : Command.ofWords verb rest = .ok command) :
    match command with
    | .set key value => Unbroken key.toList ∧ Trimmed value.toList
    | .delete key => Unbroken key.toList := by
  rcases Command.ofWords_cases h with ⟨-, rfl⟩ | ⟨-, hsecond, rfl⟩
  · simpa using ⟨unbroken_firstWord rest, trimmed_trim _⟩
  · simpa using unbroken_trim hsecond

/-- A text is read by its words, and nothing is wrong with the fields of what is read. -/
theorem Command.ofWords_of_ofText {text : String} {command : Command}
    (h : Command.ofText text = .ok command) :
    Command.ofWords (firstWord (trim text.toList))
        (trimStart (afterFirstBlank (trim text.toList))) = .ok command ∧
      command.fault? = none := by
  unfold Command.ofText at h
  simp only at h
  split at h
  · cases h
  · next hread =>
    split at h
    · cases h
    · next hfault =>
      cases h
      exact ⟨hread, hfault⟩

/-- Whatever is read is a proper command. -/
theorem Command.isProper_of_ofText {text : String} {command : Command}
    (h : Command.ofText text = .ok command) : command.IsProper := by
  obtain ⟨hread, hfault⟩ := Command.ofWords_of_ofText h
  have hparts := Command.ofWords_parts hread
  cases command with
  | set key value =>
    obtain ⟨hkey, hvalue⟩ := hparts
    obtain ⟨hkeyFault, hvalueFault⟩ := (Command.fault?_set_eq_none_iff key value).1 hfault
    obtain ⟨hne, hle⟩ := (fieldFault?_eq_none_iff _ hkey.trimmed).1 hkeyFault
    obtain ⟨hne', hle'⟩ := (fieldFault?_eq_none_iff _ hvalue).1 hvalueFault
    exact ⟨⟨hne, hkey, hle⟩, ⟨hne', hvalue, hle'⟩⟩
  | delete key =>
    obtain ⟨hne, hle⟩ := (fieldFault?_eq_none_iff _ hparts.trimmed).1 hfault
    exact ⟨hne, hparts, hle⟩

theorem Command.isProper_of_decode {bytes : Bytes} {command : Command}
    (h : Command.decode bytes = .ok command) : command.IsProper := by
  unfold Command.decode at h
  split at h
  · cases h
  · exact Command.isProper_of_ofText h

/-! ## Lines -/

/-- The same letters, if ASCII capitals and small letters are not told apart. -/
def SameLetters (a b : List Char) : Prop := a.map Char.toLower = b.map Char.toLower

/-- The lines that spell a command: its verb and its fields in this order, with gaps between them
    and any blanks around them. -/
inductive Command.Spelled : Command → List Char → Prop where
  | set {before verb gap between after : List Char} {key value : String}
      (hbefore : Blank before) (hverb : SameLetters verb "SET".toList) (hgap : Gap gap)
      (hkey : IsKey key) (hbetween : Gap between) (hvalue : IsValue value) (hafter : Blank after) :
      Spelled (.set key value)
        (before ++ verb ++ gap ++ key.toList ++ between ++ value.toList ++ after)
  | delete {before verb gap after : List Char} {key : String}
      (hbefore : Blank before) (hverb : SameLetters verb "DEL".toList) (hgap : Gap gap)
      (hkey : IsKey key) (hafter : Blank after) :
      Spelled (.delete key) (before ++ verb ++ gap ++ key.toList ++ after)

theorem gap_space : Gap [' '] :=
  ⟨List.cons_ne_nil _ _, List.forall_mem_singleton.2 (by decide)⟩

/-- A proper command is spelled by the line that is written for it. -/
theorem Command.IsProper.spelled_line {command : Command} (h : command.IsProper) :
    command.Spelled command.line.toList := by
  cases command with
  | set key value =>
    simpa [Command.line] using Command.Spelled.set blank_nil
      (show SameLetters ['S', 'E', 'T'] "SET".toList from rfl) gap_space h.1 gap_space h.2 blank_nil
  | delete key =>
    simpa [Command.line] using Command.Spelled.delete blank_nil
      (show SameLetters ['D', 'E', 'L'] "DEL".toList from rfl) gap_space h blank_nil

/-! ## What is spelled is read -/

theorem toNat_toUpper (c : Char) :
    c.toUpper.toNat = if 97 ≤ c.toNat ∧ c.toNat ≤ 122 then c.toNat - 32 else c.toNat := by
  unfold Char.toUpper
  split
  · next hsmall =>
    have hrange : 97 ≤ c.toNat ∧ c.toNat ≤ 122 := hsmall
    have hshift : ('A'.val - 'a'.val).toNat = 4294967264 := by decide
    rw [if_pos hrange]
    show (c.val + ('A'.val - 'a'.val)).toNat = _
    rw [UInt32.toNat_add, hshift, Char.toNat_val]
    omega
  · next hother => exact (if_neg hother).symm

theorem toNat_toLower (c : Char) :
    c.toLower.toNat = if 65 ≤ c.toNat ∧ c.toNat ≤ 90 then c.toNat + 32 else c.toNat := by
  unfold Char.toLower
  split
  · next hcapital =>
    have hrange : 65 ≤ c.toNat ∧ c.toNat ≤ 90 := hcapital
    rw [if_pos hrange]
    show (c.toNat + 32) % 4294967296 = _
    omega
  · next hother => exact (if_neg hother).symm

/-- Capitals are the same if and only if small letters are. -/
theorem toUpper_eq_iff (c d : Char) : c.toUpper = d.toUpper ↔ c.toLower = d.toLower := by
  rw [← Char.toNat_inj, ← Char.toNat_inj, toNat_toUpper, toNat_toUpper, toNat_toLower,
    toNat_toLower]
  grind

theorem map_toUpper_eq_iff (a b : List Char) :
    a.map Char.toUpper = b.map Char.toUpper ↔ SameLetters a b := by
  unfold SameLetters
  induction a generalizing b with
  | nil => cases b <;> simp
  | cons c a ih =>
    cases b with
    | nil => simp
    | cons d b => simp only [List.map_cons, List.cons.injEq, toUpper_eq_iff, ih]

/-- No blank is a letter. -/
theorem toUpper_of_isBlank {c : Char} (h : isBlank c) : c.toUpper = c := by
  have hrange : ¬ ('a'.val ≤ c.val ∧ c.val ≤ 'z'.val) := by
    rintro ⟨hlow, hhigh⟩
    have hlow' : 97 ≤ c.toNat := hlow
    have hhigh' : c.toNat ≤ 122 := hhigh
    simp [isBlank, blankRanges] at h
    omega
  exact dif_neg hrange

theorem unbroken_of_map_toUpper {word : List Char} (h : Unbroken (word.map Char.toUpper)) :
    Unbroken word := by
  intro c hc hblank
  refine h c.toUpper (List.mem_map_of_mem hc) ?_
  rwa [toUpper_of_isBlank hblank]

theorem hasSecondWord_of_unbroken {text : List Char} (h : Unbroken text) :
    hasSecondWord text = false := by
  have hnil : text.dropWhile (!isBlank ·) = [] :=
    List.dropWhile_eq_nil_iff.2 (by simpa [Unbroken] using h)
  unfold hasSecondWord
  rw [trimStart_of_head h.trimmed.1, hnil]
  rfl

theorem Command.ofWords_set {verb key between value : List Char}
    (hverb : verb.map Char.toUpper = "SET".toList) (hkey : Unbroken key) (hbetween : Gap between)
    (hvalue : Trimmed value) (hne : value ≠ []) :
    Command.ofWords verb (key ++ between ++ value) =
      .ok (.set (String.ofList key) (String.ofList value)) := by
  obtain ⟨blanks, hblanks, hbehind⟩ := exists_afterFirstBlank_append hkey hbetween value
  have htrim : trim (blanks ++ value) = value := by
    simpa using trim_append hblanks hvalue hne blank_nil
  unfold Command.ofWords
  simp only
  rw [if_pos hverb, firstWord_append hkey hbetween, hbehind, htrim]

theorem Command.ofWords_delete {verb key : List Char}
    (hverb : verb.map Char.toUpper = "DEL".toList) (hkey : Unbroken key) :
    Command.ofWords verb key = .ok (.delete (String.ofList key)) := by
  have hset : ¬ verb.map Char.toUpper = "SET".toList := by
    rw [hverb]
    decide
  unfold Command.ofWords
  simp only
  rw [if_neg hset, if_pos hverb, hasSecondWord_of_unbroken hkey, hkey.trimmed.trim_eq]
  rfl

/-- A line that consists of a verb and a trimmed rest is taken apart there. -/
theorem Command.ofText_of_words {text : String} {before verb gap rest after : List Char}
    {command : Command} (htext : text.toList = before ++ (verb ++ gap ++ rest) ++ after)
    (hbefore : Blank before) (hverb : Unbroken verb) (hverb' : verb ≠ []) (hgap : Gap gap)
    (hrest : Trimmed rest) (hrest' : rest ≠ []) (hafter : Blank after)
    (hread : Command.ofWords verb rest = .ok command) (hfault : command.fault? = none) :
    Command.ofText text = .ok command := by
  have hline : Trimmed (verb ++ gap ++ rest) := hverb.trimmed.append hrest hverb' hrest' gap
  have htrim := trim_append hbefore hline (by simp [hverb']) hafter
  obtain ⟨blanks, hblanks, hbehind⟩ := exists_afterFirstBlank_append hverb hgap rest
  unfold Command.ofText
  simp only [htext, htrim, firstWord_append hverb hgap, hbehind, trimStart_append hblanks,
    trimStart_of_head hrest.1, hread, hfault]

/-- A command is read from every line that spells it. -/
theorem Command.Spelled.ofText {text : String} {command : Command}
    (h : command.Spelled text.toList) : Command.ofText text = .ok command := by
  generalize htext : text.toList = line at h
  cases h with
  | @set before verb gap between after key value hbefore hverb hgap hkey hbetween hvalue hafter =>
    have hupper : verb.map Char.toUpper = "SET".toList := (map_toUpper_eq_iff _ _).2 hverb
    have hword : Unbroken verb := unbroken_of_map_toUpper (by rw [hupper]; decide)
    have hrest : Trimmed (key.toList ++ between ++ value.toList) :=
      hkey.unbroken.trimmed.append hvalue.trimmed hkey.ne_nil hvalue.ne_nil between
    have hread := Command.ofWords_set hupper hkey.unbroken hbetween hvalue.trimmed hvalue.ne_nil
    refine Command.ofText_of_words (by simpa using htext) hbefore hword ?_ hgap hrest
      (by simp [hkey.ne_nil]) hafter (by simpa using hread) ?_
    · rintro rfl
      cases hupper
    · exact (Command.fault?_set_eq_none_iff key value).2
        ⟨hkey.fault?_eq_none _, hvalue.fault?_eq_none _⟩
  | @delete before verb gap after key hbefore hverb hgap hkey hafter =>
    have hupper : verb.map Char.toUpper = "DEL".toList := (map_toUpper_eq_iff _ _).2 hverb
    have hword : Unbroken verb := unbroken_of_map_toUpper (by rw [hupper]; decide)
    have hread := Command.ofWords_delete hupper hkey.unbroken
    refine Command.ofText_of_words (by simpa using htext) hbefore hword ?_ hgap
      hkey.unbroken.trimmed hkey.ne_nil hafter (by simpa using hread) (hkey.fault?_eq_none _)
    rintro rfl
    cases hupper

theorem Command.decode_utf8 (text : String) :
    Command.decode (utf8 text) = Command.ofText text := by
  unfold Command.decode
  rw [text?_utf8]

theorem Command.decode_encode {command : Command} (h : command.IsProper) :
    Command.decode command.encode = .ok command := by
  unfold Command.encode
  rw [Command.decode_utf8]
  exact h.spelled_line.ofText

/-! ## Writing and reading -/

/-- A command is read back from what was written if and only if it is proper, and so is every
    command that was ever read. -/
theorem Command.decode_encode_iff :
    (∀ command : Command, Command.decode command.encode = .ok command ↔ command.IsProper) ∧
      ∀ bytes command, Command.decode bytes = .ok command →
        Command.decode command.encode = .ok command := by
  refine ⟨fun command => ⟨Command.isProper_of_decode, Command.decode_encode⟩, ?_⟩
  intro bytes command h
  exact Command.decode_encode (Command.isProper_of_decode h)

/-- A line with other blanks and a verb in small letters: what is read is written differently, and
    is read back. -/
theorem Command.decode_encode_iff_otherSpelling :
    let bytes := utf8 " set\tgreeting  hello there "
    let command := Command.set "greeting" "hello there"
    Command.decode bytes = .ok command ∧ command.encode ≠ bytes ∧
      Command.decode command.encode = .ok command := by
  have hread : Command.decode (utf8 " set\tgreeting  hello there ") =
      .ok (.set "greeting" "hello there") := by
    rfl
  exact ⟨hread, by decide, Command.decode_encode_iff.2 _ _ hread⟩

end Quorum.KeyValue
