import Quorum.Proofs.KeyValue.Command

set_option autoImplicit false

/-! # The language of commands

What is read as a command is exactly what spells it. Reading trims a line and cuts it at its blanks,
by one rule for the first verb and by another for the second; a line of the grammar is its parts,
one after the other. That the two agree says in particular that a line spells at most one command,
and that nothing is read from bytes that are no text. -/

namespace Quorum.KeyValue

open Quorum.Text

/-! ## What is read was spelled -/

theorem trimStart_ne_nil {text : List Char} (h : trim text ≠ []) : trimStart text ≠ [] := by
  intro hnil
  refine h ?_
  unfold trim
  rw [hnil]
  rfl

/-- Words that are read as a command belong to a line that spells it. -/
theorem Command.spelled_of_ofWords {before line after verb rest : List Char} {command : Command}
    (hread : Command.ofWords verb rest = .ok command) (hproper : command.IsProper)
    (hbefore : Blank before) (hafter : Blank after) (hstart : trimStart rest = rest)
    (hline : rest ≠ [] → ∃ gap, Gap gap ∧ line = verb ++ gap ++ rest) :
    command.Spelled (before ++ line ++ after) := by
  rcases Command.ofWords_cases hread with ⟨hverb, rfl⟩ | ⟨hverb, -, rfl⟩
  · obtain ⟨hkey, hvalue⟩ := hproper
    have hletters : SameLetters verb "SET".toList := (map_toUpper_eq_iff _ _).1 hverb
    have hvalueText : trim (afterFirstBlank rest) ≠ [] := by
      simpa using hvalue.ne_nil
    have hrestText : rest ≠ [] := by
      rintro rfl
      exact hvalueText rfl
    obtain ⟨gap, hgap, hline⟩ := hline hrestText
    obtain ⟨between, hbetween, hrest⟩ := exists_gap (trimStart_ne_nil hvalueText)
    obtain ⟨blanks, hblanks, hend⟩ := exists_blank_trimEnd (trimStart (afterFirstBlank rest))
    have hspelled := Command.Spelled.set hbefore hletters hgap hkey hbetween hvalue
      (List.forall_mem_append.2 ⟨hblanks, hafter⟩)
    have hparts : before ++ line ++ after =
        before ++ verb ++ gap ++ firstWord rest ++ between ++ trim (afterFirstBlank rest) ++
          (blanks ++ after) := by
      calc before ++ line ++ after
          = before ++ (verb ++ gap ++ rest) ++ after := by rw [hline]
        _ = before ++ (verb ++ gap ++
              (firstWord rest ++ between ++ trimStart (afterFirstBlank rest))) ++ after := by
            rw [← hrest]
        _ = before ++ (verb ++ gap ++
              (firstWord rest ++ between ++ (trim (afterFirstBlank rest) ++ blanks))) ++ after := by
            rw [trim, ← hend]
        _ = _ := by simp only [List.append_assoc]
    rw [hparts]
    simpa only [String.toList_ofList] using hspelled
  · have hletters : SameLetters verb "DEL".toList := (map_toUpper_eq_iff _ _).1 hverb
    have hkeyText : trim rest ≠ [] := by
      simpa using hproper.ne_nil
    have hrestText : rest ≠ [] := by
      rintro rfl
      exact hkeyText rfl
    obtain ⟨gap, hgap, hline⟩ := hline hrestText
    obtain ⟨blanks, hblanks, hend⟩ := exists_blank_trimEnd rest
    have htrim : trim rest = trimEnd rest := by
      unfold trim
      rw [hstart]
    have hspelled := Command.Spelled.delete hbefore hletters hgap hproper
      (List.forall_mem_append.2 ⟨hblanks, hafter⟩)
    have hparts : before ++ line ++ after =
        before ++ verb ++ gap ++ trim rest ++ (blanks ++ after) := by
      calc before ++ line ++ after
          = before ++ (verb ++ gap ++ rest) ++ after := by rw [hline]
        _ = before ++ (verb ++ gap ++ (trim rest ++ blanks)) ++ after := by rw [htrim, ← hend]
        _ = _ := by simp only [List.append_assoc]
    rw [hparts]
    simpa only [String.toList_ofList] using hspelled

/-- A text that is read as a command spells it. -/
theorem Command.spelled_of_ofText {text : String} {command : Command}
    (h : Command.ofText text = .ok command) : command.Spelled text.toList := by
  obtain ⟨hread, -⟩ := Command.ofWords_of_ofText h
  obtain ⟨before, after, hbefore, hafter, htext⟩ := exists_blank_trim text.toList
  have hstart : trimStart (trimStart (afterFirstBlank (trim text.toList))) =
      trimStart (afterFirstBlank (trim text.toList)) := trimStart_of_head (head_trimStart _)
  rw [htext]
  exact Command.spelled_of_ofWords hread (Command.isProper_of_ofText h) hbefore hafter hstart
    exists_gap

/-! ## What is not read -/

/-- Words are read as a command, or they are complained about. -/
theorem Command.ofWords_or (verb rest : List Char) :
    (∃ command, Command.ofWords verb rest = .ok command) ∨
      ∃ complaint, Command.ofWords verb rest = .error (.invalidCommand complaint) := by
  unfold Command.ofWords
  simp only
  split
  · exact Or.inl ⟨_, rfl⟩
  · split
    · split
      · exact Or.inr ⟨_, rfl⟩
      · exact Or.inl ⟨_, rfl⟩
    · exact Or.inr ⟨_, rfl⟩

/-- Bytes are read as a command, or they are complained about. -/
theorem Command.decode_or (bytes : Bytes) :
    (∃ command, Command.decode bytes = .ok command) ∨
      ∃ complaint, Command.decode bytes = .error (.invalidCommand complaint) := by
  unfold Command.decode
  split
  · exact Or.inr ⟨_, rfl⟩
  · next text _ =>
    unfold Command.ofText
    simp only
    rcases Command.ofWords_or (firstWord (trim text.toList))
      (trimStart (afterFirstBlank (trim text.toList))) with ⟨command, hread⟩ | ⟨complaint, hread⟩
    · rw [hread]
      cases hfault : command.fault? with
      | none => exact Or.inl ⟨command, by simp [hfault]⟩
      | some complaint => exact Or.inr ⟨complaint, by simp [hfault]⟩
    · rw [hread]
      exact Or.inr ⟨complaint, rfl⟩

/-! ## The language -/

theorem Command.decode_eq_ok_iff (bytes : Bytes) (command : Command) :
    Command.decode bytes = .ok command ↔
      ∃ text, bytes = utf8 text ∧ command.Spelled text.toList := by
  constructor
  · intro h
    cases htext : Bytes.text? bytes with
    | none =>
      unfold Command.decode at h
      rw [htext] at h
      cases h
    | some text =>
      obtain rfl := (Bytes.text?_eq_some_iff bytes text).1 htext
      rw [Command.decode_utf8] at h
      exact ⟨text, rfl, Command.spelled_of_ofText h⟩
  · rintro ⟨text, rfl, hspelled⟩
    rw [Command.decode_utf8]
    exact hspelled.ofText

/-- Bytes are read as a command if and only if they are the encoding of a text that spells it, and
    they are complained about if and only if they spell nothing. -/
theorem Command.decode_accepts_spelled (bytes : Bytes) :
    (∀ command, Command.decode bytes = .ok command ↔
      ∃ text, bytes = utf8 text ∧ command.Spelled text.toList) ∧
    ((∃ complaint, Command.decode bytes = .error (.invalidCommand complaint)) ↔
      ¬ ∃ command text, bytes = utf8 text ∧ Command.Spelled command text.toList) := by
  refine ⟨Command.decode_eq_ok_iff bytes, ?_⟩
  constructor
  · rintro ⟨complaint, hcomplaint⟩ ⟨command, hspelled⟩
    have hread := (Command.decode_eq_ok_iff bytes command).2 hspelled
    rw [hcomplaint] at hread
    cases hread
  · intro hnone
    rcases Command.decode_or bytes with ⟨command, hread⟩ | hcomplaint
    · exact absurd ⟨command, (Command.decode_eq_ok_iff bytes command).1 hread⟩ hnone
    · exact hcomplaint

end Quorum.KeyValue
