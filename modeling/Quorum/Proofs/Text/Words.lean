import Mathlib.Data.List.DropRight
import Mathlib.Data.List.TakeWhile
import Quorum.Text.Blank

set_option autoImplicit false

/-! # Words and blanks

A word is a text without blanks, and a trimmed text is one that neither begins nor ends with a
blank. Trimming gives a trimmed text and leaves it alone afterwards, and a word is split off again
from whatever blank and text it is followed by. -/

namespace Quorum.Text

/-! ## Words -/

/-- There is no blank in the text. -/
def Unbroken (text : List Char) : Prop := ∀ c ∈ text, ¬ isBlank c

instance (text : List Char) : Decidable (Unbroken text) :=
  List.decidableBAll (fun c => ¬ isBlank c) text

theorem unbroken_firstWord (text : List Char) : Unbroken (firstWord text) := by
  intro c hc
  simpa using List.mem_takeWhile_imp hc

/-- There is nothing but blanks in the text. -/
def Blank (text : List Char) : Prop := ∀ c ∈ text, isBlank c

theorem blank_nil : Blank [] := List.forall_mem_nil _

/-- What divides two words: blanks, and at least one of them. -/
structure Gap (text : List Char) : Prop where
  ne_nil : text ≠ []
  blank : Blank text

/-- A word ends where a gap begins. -/
theorem firstWord_append {word gap : List Char} (hword : Unbroken word) (hgap : Gap gap)
    (rest : List Char) : firstWord (word ++ gap ++ rest) = word := by
  obtain ⟨hne, hblank⟩ := hgap
  obtain ⟨first, blanks, rfl⟩ := List.exists_cons_of_ne_nil hne
  unfold firstWord
  rw [List.append_assoc, List.takeWhile_append_of_pos (by simpa [Unbroken] using hword)]
  simp [hblank first (List.mem_cons_self ..)]

/-- Behind the first blank comes what is left of the gap, and then the rest. -/
theorem exists_afterFirstBlank_append {word gap : List Char} (hword : Unbroken word)
    (hgap : Gap gap) (rest : List Char) :
    ∃ blanks, Blank blanks ∧ afterFirstBlank (word ++ gap ++ rest) = blanks ++ rest := by
  obtain ⟨hne, hblank⟩ := hgap
  obtain ⟨first, blanks, rfl⟩ := List.exists_cons_of_ne_nil hne
  obtain ⟨hfirst, hblanks⟩ := List.forall_mem_cons.1 hblank
  refine ⟨blanks, hblanks, ?_⟩
  unfold afterFirstBlank
  rw [List.append_assoc, List.dropWhile_append_of_pos (by simpa [Unbroken] using hword)]
  simp [hfirst]

/-- A text that goes on behind its first word has a gap there. -/
theorem exists_gap {text : List Char} (h : trimStart (afterFirstBlank text) ≠ []) :
    ∃ gap, Gap gap ∧ text = firstWord text ++ gap ++ trimStart (afterFirstBlank text) := by
  have hsplit : text = firstWord text ++ text.dropWhile (!isBlank ·) :=
    List.takeWhile_append_dropWhile.symm
  cases hrest : text.dropWhile (!isBlank ·) with
  | nil =>
    refine absurd ?_ h
    unfold afterFirstBlank
    rw [hrest]
    rfl
  | cons first rest =>
    have hfirst : isBlank first := by
      have hstop := List.head?_dropWhile_not (!isBlank ·) text
      rw [hrest] at hstop
      simpa using hstop
    have hafter : afterFirstBlank text = rest := by
      unfold afterFirstBlank
      rw [hrest]
      rfl
    refine ⟨first :: rest.takeWhile isBlank, ⟨List.cons_ne_nil _ _, ?_⟩, ?_⟩
    · exact List.forall_mem_cons.2 ⟨hfirst, fun c hc => List.mem_takeWhile_imp hc⟩
    · rw [hafter, trimStart, List.append_assoc, List.cons_append,
        List.takeWhile_append_dropWhile, ← hrest]
      exact hsplit

/-! ## Trimming -/

/-- The text neither begins nor ends with a blank. -/
def Trimmed (text : List Char) : Prop :=
  (∀ c ∈ text.head?, ¬ isBlank c) ∧ ∀ c ∈ text.getLast?, ¬ isBlank c

instance (text : List Char) : Decidable (Trimmed text) :=
  inferInstanceAs
    (Decidable ((∀ c ∈ text.head?, ¬ isBlank c) ∧ ∀ c ∈ text.getLast?, ¬ isBlank c))

theorem Unbroken.trimmed {text : List Char} (h : Unbroken text) : Trimmed text :=
  ⟨fun c hc => h c (List.mem_of_mem_head? hc), fun c hc => h c (List.mem_of_mem_getLast? hc)⟩

/-- Two texts are trimmed together if the first one is at its beginning and the other at its end. -/
theorem Trimmed.append {first last : List Char} (hfirst : Trimmed first) (hlast : Trimmed last)
    (hne : first ≠ []) (hne' : last ≠ []) (between : List Char) :
    Trimmed (first ++ between ++ last) := by
  constructor
  · intro c hc
    rw [List.append_assoc, List.head?_append_of_ne_nil _ hne] at hc
    exact hfirst.1 c hc
  · intro c hc
    rw [List.getLast?_append_of_ne_nil _ hne'] at hc
    exact hlast.2 c hc

theorem trimStart_of_head {text : List Char} (h : ∀ c ∈ text.head?, ¬ isBlank c) :
    trimStart text = text := by
  cases text with
  | nil => rfl
  | cons c rest => exact List.dropWhile_cons_of_neg (h c rfl)

theorem trimEnd_of_last {text : List Char} (h : ∀ c ∈ text.getLast?, ¬ isBlank c) :
    trimEnd text = text :=
  List.rdropWhile_eq_self_iff.2 fun hne => h _ (List.getLast?_eq_some_getLast hne)

/-- Nothing is taken from a trimmed text. -/
theorem Trimmed.trim_eq {text : List Char} (h : Trimmed text) : trim text = text := by
  unfold trim
  rw [trimStart_of_head h.1, trimEnd_of_last h.2]

theorem head_trimStart (text : List Char) : ∀ c ∈ (trimStart text).head?, ¬ isBlank c := by
  intro c hc
  have hstop := List.head?_dropWhile_not isBlank text
  rw [show (text.dropWhile isBlank).head? = some c from hc] at hstop
  simpa using hstop

theorem last_trimEnd (text : List Char) : ∀ c ∈ (trimEnd text).getLast?, ¬ isBlank c := by
  intro c hc
  have hne : trimEnd text ≠ [] := by
    rintro hnil
    simp [hnil] at hc
  rw [List.getLast?_eq_some_getLast hne] at hc
  cases hc
  exact List.rdropWhile_last_not isBlank text hne

/-- What trimming gives is trimmed. -/
theorem trimmed_trim (text : List Char) : Trimmed (trim text) := by
  refine ⟨?_, last_trimEnd _⟩
  intro c hc
  obtain ⟨rest, hrest⟩ : trim text <+: trimStart text := List.rdropWhile_prefix isBlank _
  refine head_trimStart text c ?_
  rw [← hrest, List.head?_append, Option.mem_def.1 hc]
  rfl

/-- Blanks at the beginning do not matter. -/
theorem trimStart_append {blanks : List Char} (hblanks : Blank blanks) (text : List Char) :
    trimStart (blanks ++ text) = trimStart text :=
  List.dropWhile_append_of_pos hblanks

/-- Blanks at the end do not matter. -/
theorem trimEnd_append {word blanks : List Char} (hblanks : Blank blanks) :
    trimEnd (word ++ blanks) = trimEnd word := by
  unfold trimEnd
  rw [List.reverse_append, List.dropWhile_append_of_pos (by simpa [Blank] using hblanks)]

/-- Nothing but the blanks around it is taken from a trimmed text. -/
theorem trim_append {before text after : List Char} (hbefore : Blank before)
    (htext : Trimmed text) (hne : text ≠ []) (hafter : Blank after) :
    trim (before ++ text ++ after) = text := by
  have hhead : ∀ c ∈ (text ++ after).head?, ¬ isBlank c := by
    rw [List.head?_append_of_ne_nil _ hne]
    exact htext.1
  unfold trim
  rw [List.append_assoc, trimStart_append hbefore, trimStart_of_head hhead, trimEnd_append hafter,
    trimEnd_of_last htext.2]

theorem exists_blank_trimEnd (text : List Char) :
    ∃ blanks, Blank blanks ∧ text = trimEnd text ++ blanks :=
  ⟨text.rtakeWhile isBlank, fun _ => List.mem_rtakeWhile_imp,
    List.rdropWhile_append_rtakeWhile.symm⟩

/-- What trimming takes away is blank. -/
theorem exists_blank_trim (text : List Char) :
    ∃ before after, Blank before ∧ Blank after ∧ text = before ++ trim text ++ after := by
  have hstart : text = text.takeWhile isBlank ++ trimStart text :=
    List.takeWhile_append_dropWhile.symm
  obtain ⟨after, hafter, hend⟩ := exists_blank_trimEnd (trimStart text)
  refine ⟨text.takeWhile isBlank, after, fun _ => List.mem_takeWhile_imp, hafter, ?_⟩
  unfold trim
  rw [List.append_assoc, ← hend]
  exact hstart

end Quorum.Text
