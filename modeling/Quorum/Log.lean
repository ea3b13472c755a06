import Quorum.Error

set_option autoImplicit false

/-! # The replicated log

A log is a list of entries that carry the indices 1, 2, 3, … in this order; that they do is part
of the type. Two operations make it longer: a leader puts a fresh command at the end (`push`), and
a follower takes over a batch of entries that a leader sends (`append`).

A batch is tied to the log by the position before its first entry. It is taken only if the log has
an entry of the right term there. Entries of the batch that the log already holds (same index, same
term) are left alone; the first one that disagrees throws away everything from its index on. -/

namespace Quorum

/-! ## Entries and positions -/

/-- A command with the term in which a leader created it and its place in the log. -/
structure Entry where
  term : Nat
  index : Nat
  command : Bytes
  deriving DecidableEq, Repr

/-- Where a log ends, or where a batch goes: an index and the term of the entry there. -/
structure Position where
  term : Nat
  index : Nat
  deriving DecidableEq, Repr

/-- The position before the first entry. -/
def Position.origin : Position := ⟨0, 0⟩

/-- The position of an entry. -/
def Entry.position (entry : Entry) : Position := ⟨entry.term, entry.index⟩

/-- A log that ends at `p` is at least as up to date as one that ends at `q`: its last term is
    newer, or it is the same and the log is not shorter. -/
def Position.AtLeast (p q : Position) : Prop :=
  q.term < p.term ∨ q.term = p.term ∧ q.index ≤ p.index

instance (p q : Position) : Decidable (p.AtLeast q) := by
  unfold Position.AtLeast; infer_instance

/-! ## Contiguity -/

/-- The first entry that does not carry the next index, counted from `next`, with the index that
    it should carry. -/
def misplaced? (next : Nat) : List Entry → Option (Entry × Nat)
  | [] => none
  | entry :: rest => if entry.index = next then misplaced? (next + 1) rest else some (entry, next)

/-- The entries carry the indices `first`, `first + 1`, … in this order. -/
def ContiguousFrom (first : Nat) (entries : List Entry) : Prop :=
  entries.map Entry.index = List.range' first entries.length

instance (first : Nat) (entries : List Entry) : Decidable (ContiguousFrom first entries) := by
  unfold ContiguousFrom; infer_instance

@[simp]
theorem contiguousFrom_nil (first : Nat) : ContiguousFrom first [] := rfl

@[simp]
theorem contiguousFrom_cons (first : Nat) (entry : Entry) (rest : List Entry) :
    ContiguousFrom first (entry :: rest) ↔
      entry.index = first ∧ ContiguousFrom (first + 1) rest := by
  simp [ContiguousFrom, List.range'_succ]

theorem misplaced?_eq_none_iff (first : Nat) (entries : List Entry) :
    misplaced? first entries = none ↔ ContiguousFrom first entries := by
  induction entries generalizing first with
  | nil => simp [misplaced?]
  | cons entry rest ih =>
      by_cases h : entry.index = first
      · simp [misplaced?, h, ih]
      · simp [misplaced?, h]

theorem ContiguousFrom.take {first : Nat} {entries : List Entry}
    (h : ContiguousFrom first entries) (n : Nat) : ContiguousFrom first (entries.take n) := by
  induction entries generalizing first n with
  | nil => simp
  | cons entry rest ih =>
      cases n with
      | zero => simp
      | succ n =>
          have ⟨h₁, h₂⟩ := (contiguousFrom_cons ..).1 h
          exact (contiguousFrom_cons ..).2 ⟨h₁, ih h₂ n⟩

theorem ContiguousFrom.concat {first : Nat} {entries : List Entry}
    (h : ContiguousFrom first entries) {entry : Entry}
    (he : entry.index = first + entries.length) :
    ContiguousFrom first (entries ++ [entry]) := by
  unfold ContiguousFrom at *
  simp [h, he, List.range'_concat]

/-! ## The log -/

/-- Entries with the indices 1, 2, 3, … -/
structure Log where
  entries : List Entry
  contiguous : ContiguousFrom 1 entries
  deriving DecidableEq

/-- The log without entries. -/
def Log.empty : Log := ⟨[], rfl⟩

theorem Log.eq_of_entries_eq {a b : Log} (h : a.entries = b.entries) : a = b := by
  cases a; cases b; cases h; rfl

/-- A log made of entries that were stored, refused unless their indices are 1, 2, 3, … -/
def Log.ofEntries (entries : List Entry) : Except EngineError Log :=
  match h : misplaced? 1 entries with
  | none => .ok ⟨entries, (misplaced?_eq_none_iff 1 entries).1 h⟩
  | some (entry, position) =>
      .error (.invalidArgument (.misplacedEntry entry.index position))

theorem Log.ofEntries_eq_ok_iff (entries : List Entry) (log : Log) :
    Log.ofEntries entries = .ok log ↔ log.entries = entries := by
  obtain ⟨stored, contiguous⟩ := log
  unfold Log.ofEntries
  split
  · simp [eq_comm]
  · next h =>
      simp only [reduceCtorEq, false_iff]
      rintro rfl
      simp [(misplaced?_eq_none_iff 1 stored).2 contiguous] at h

/-- The number of entries, which is also the index of the last one. -/
def Log.length (log : Log) : Nat := log.entries.length

/-- Where the log ends. -/
def Log.last (log : Log) : Position :=
  match log.entries.getLast? with
  | some entry => entry.position
  | none => .origin

/-- The entry at `index`, if the log has one. -/
def Log.get? (log : Log) (index : Nat) : Option Entry :=
  if index = 0 then none else log.entries[index - 1]?

/-- The entry at `index`, or the error that there is none. -/
def Log.entryAt (log : Log) (index : Nat) : Except EngineError Entry :=
  match log.get? index with
  | some entry => .ok entry
  | none => .error (.outOfRange index log.length)

/-- The term at `index`: 0 before the first entry, nothing past the end. -/
def Log.termAt (log : Log) (index : Nat) : Option Nat :=
  if index = 0 then some 0 else (log.entries[index - 1]?).map Entry.term

@[simp]
theorem Log.termAt_zero (log : Log) : log.termAt 0 = some 0 := rfl

theorem Log.termAt_eq_none_iff (log : Log) (index : Nat) :
    log.termAt index = none ↔ log.length < index := by
  unfold Log.termAt Log.length
  split
  · simp_all
  · simp only [Option.map_eq_none_iff, List.getElem?_eq_none_iff]
    omega

/-- The entries from `start` to the end; starting at 0 is starting at the first one. -/
def Log.entriesFrom (log : Log) (start : Nat) : List Entry := log.entries.drop (start - 1)

/-- Drop every entry with an index greater than `index`. -/
def Log.truncateAfter (log : Log) (index : Nat) : Log :=
  ⟨log.entries.take index, log.contiguous.take index⟩

@[simp]
theorem Log.entries_truncateAfter (log : Log) (index : Nat) :
    (log.truncateAfter index).entries = log.entries.take index := rfl

/-- The entry that a command becomes when it is put at the end of the log. -/
def Log.next (log : Log) (term : Nat) (command : Bytes) : Entry :=
  ⟨term, log.length + 1, command⟩

/-- Put a command at the end. -/
def Log.push (log : Log) (term : Nat) (command : Bytes) : Log :=
  ⟨log.entries ++ [log.next term command], log.contiguous.concat (Nat.add_comm ..)⟩

@[simp]
theorem Log.entries_push (log : Log) (term : Nat) (command : Bytes) :
    (log.push term command).entries = log.entries ++ [⟨term, log.length + 1, command⟩] := rfl

/-- A log that ends at `last` is at least as up to date as this one. -/
def Log.IsUpToDate (log : Log) (last : Position) : Prop := last.AtLeast log.last

instance (log : Log) (last : Position) : Decidable (log.IsUpToDate last) := by
  unfold Log.IsUpToDate; infer_instance

/-! ## Taking over a batch -/

/-- What became of a batch. -/
inductive AppendOutcome where
  /-- The log does not have the position that the batch goes behind, or the batch has gaps. -/
  | rejected
  /-- The log now holds the batch. `lastNew` is the index of the last entry that the request
      covers, `firstWritten` the lowest index at which the log changed, if it did. -/
  | accepted (lastNew : Nat) (firstWritten : Option Nat)
  deriving DecidableEq, Repr

/-- Place one entry of a batch: kept if the log has it, put at the end if the log stops before it,
    and else put in the place of everything from its index on. Tells whether the log changed. -/
def Log.place (log : Log) (entry : Entry) : Bool × Log :=
  match log.termAt entry.index with
  | some term =>
      if term = entry.term then (false, log)
      else (true, (log.truncateAfter (entry.index - 1)).push entry.term entry.command)
  | none => (true, log.push entry.term entry.command)

/-- Place the entries of a batch in turn; with the index of the first one that changed the log. -/
def Log.placeAll (log : Log) : List Entry → Option Nat × Log
  | [] => (none, log)
  | entry :: rest =>
      let (changed, log) := log.place entry
      let (later, log) := log.placeAll rest
      (if changed then some entry.index else later, log)

/-- Take over a batch that goes behind the position `prev`. -/
def Log.append (log : Log) (batch : List Entry) (prev : Position) : AppendOutcome × Log :=
  if log.termAt prev.index = some prev.term then
    match misplaced? (prev.index + 1) batch with
    | some _ => (.rejected, log)
    | none =>
        let (firstWritten, log) := log.placeAll batch
        (.accepted (prev.index + batch.length) firstWritten, log)
  else (.rejected, log)

end Quorum
