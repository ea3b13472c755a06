import Mathlib.Data.List.Basic
import Quorum.Log

set_option autoImplicit false

/-! # Logs as lists

Statements about many logs at once, at different times and in different places, are made about their
lists of entries. This module says where such a list ends, and when one of two lists goes on where
the other ends. -/

namespace Quorum

/-! ## Positions -/

theorem Position.atLeast_refl (p : Position) : p.AtLeast p := Or.inr ⟨rfl, Nat.le_refl _⟩

theorem Position.AtLeast.term_le {p q : Position} (h : p.AtLeast q) : q.term ≤ p.term := by
  rcases h with h | ⟨h, -⟩ <;> omega

theorem Position.AtLeast.index_le {p q : Position} (h : p.AtLeast q) (hterm : p.term ≤ q.term) :
    q.index ≤ p.index := by
  rcases h with h | ⟨-, h⟩ <;> omega

/-! ## The end of a list -/

/-- Where a list of entries ends. -/
def endOf (entries : List Entry) : Position :=
  match entries.getLast? with
  | some entry => entry.position
  | none => .origin

/-- The term of the last entry, 0 if there is none. -/
def lastTerm (entries : List Entry) : Nat := (endOf entries).term

@[simp]
theorem endOf_nil : endOf [] = .origin := rfl

@[simp]
theorem endOf_concat (entries : List Entry) (entry : Entry) :
    endOf (entries ++ [entry]) = entry.position := by
  simp [endOf]

@[simp]
theorem lastTerm_nil : lastTerm [] = 0 := rfl

@[simp]
theorem lastTerm_concat (entries : List Entry) (entry : Entry) :
    lastTerm (entries ++ [entry]) = entry.term := by
  simp [lastTerm, Entry.position]

theorem Log.last_eq_endOf (log : Log) : log.last = endOf log.entries := rfl

/-- The last entry of a list whose indices count from 1 carries its length. -/
theorem ContiguousFrom.index_endOf {entries : List Entry} (h : ContiguousFrom 1 entries) :
    (endOf entries).index = entries.length := by
  rcases List.eq_nil_or_concat entries with rfl | ⟨before, entry, rfl⟩
  · rfl
  · have hlast := congrArg List.getLast? h
    simpa [Entry.position, List.range'_concat, Nat.add_comm] using hlast

theorem ContiguousFrom.drop {first : Nat} {entries : List Entry} (h : ContiguousFrom first entries)
    (count : Nat) : ContiguousFrom (first + count) (entries.drop count) := by
  unfold ContiguousFrom at h ⊢
  rw [List.map_drop, h, List.drop_range', Nat.mul_one, List.length_drop]

/-- Where indices count from 1, an entry is the last one up to its index. -/
theorem ContiguousFrom.take_of_mem {entries : List Entry} (h : ContiguousFrom 1 entries)
    {entry : Entry} (hmem : entry ∈ entries) :
    entry.index ≤ entries.length ∧ ∃ before, entries.take entry.index = before ++ [entry] := by
  obtain ⟨before, after, rfl⟩ := List.append_of_mem hmem
  have hpart : (before ++ entry :: after).take (before.length + 1) = before ++ [entry] := by
    rw [List.take_append, List.take_of_length_le (Nat.le_succ _), Nat.add_sub_cancel_left]
    rfl
  have hindex := (hpart ▸ h.take (before.length + 1)).index_endOf
  rw [endOf_concat, List.length_append] at hindex
  have hindex : entry.index = before.length + 1 := hindex
  rw [hindex]
  exact ⟨by simp, before, hpart⟩

/-- Every entry is the last one of some part of the list. -/
theorem exists_prefix_of_mem {entries : List Entry} {entry : Entry} (h : entry ∈ entries) :
    ∃ part, part <+: entries ∧ part ≠ [] ∧ lastTerm part = entry.term := by
  obtain ⟨before, after, rfl⟩ := List.append_of_mem h
  refine ⟨before ++ [entry], ⟨after, by simp⟩, by simp, by simp⟩

/-- The term at an index is that of the last entry up to there. -/
theorem Log.termAt_eq_some_iff (log : Log) (index term : Nat) :
    log.termAt index = some term ↔
      index ≤ log.length ∧ lastTerm (log.entries.take index) = term := by
  unfold Log.termAt Log.length
  rcases index with _ | index
  · simp
  · rw [if_neg (by omega), Nat.add_sub_cancel]
    by_cases hlt : index < log.entries.length
    · rw [List.getElem?_eq_getElem hlt, List.take_succ_eq_append_getElem hlt, lastTerm_concat]
      simpa using fun _ => Nat.succ_le_of_lt hlt
    · rw [List.getElem?_eq_none (by omega)]
      simp only [Option.map_none, reduceCtorEq, false_iff]
      omega

/-- The place of the last entry of a part of a log. -/
theorem getElem?_of_concat_prefix {before log : List Entry} {entry : Entry}
    (h : before ++ [entry] <+: log) : log[before.length]? = some entry := by
  obtain ⟨after, rfl⟩ := h
  simp

/-! ## Lists that go on alike -/

/-- One of the two lists goes on where the other ends. -/
def Comparable (a b : List Entry) : Prop := a <+: b ∨ b <+: a

theorem Comparable.symm {a b : List Entry} (h : Comparable a b) : Comparable b a := Or.symm h

theorem Comparable.of_prefix {a b log : List Entry} (ha : a <+: log) (hb : b <+: log) :
    Comparable a b := List.prefix_or_prefix_of_prefix ha hb

theorem Comparable.prefix_of_length_le {a b : List Entry} (h : Comparable a b)
    (hle : a.length ≤ b.length) : a <+: b := by
  rcases h with h | h
  · exact h
  · exact (h.eq_of_length_le hle) ▸ List.prefix_rfl

theorem Comparable.eq_of_length_eq {a b : List Entry} (h : Comparable a b)
    (heq : a.length = b.length) : a = b :=
  (h.prefix_of_length_le (Nat.le_of_eq heq)).eq_of_length heq

end Quorum
