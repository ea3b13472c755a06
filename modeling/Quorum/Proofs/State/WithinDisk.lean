import Mathlib.Data.List.Induction
import Quorum.Proofs.State.Operations

set_option autoImplicit false

/-! # Memory never runs ahead of the disk

Whatever is asked of the durable state and whichever writes the disk refuses, there is nothing in
memory that a restart would lose: the ballot is that of the disk, and the log is the beginning of
the one on the disk. The disk may hold more, if a write of the log has failed and none has succeeded
since. And an operation that fails does not change who can still get the vote. -/

namespace Quorum.DurableState

variable {σ : Type}

/-! ## Who can get the vote -/

/-- Whether a candidate can still get the vote of the present term: it has it, or nobody does. -/
def MayVoteFor (s : DurableState σ) (candidate : ServerId) : Prop :=
  s.vote = some candidate ∨ s.votedTerm < s.term

/-- A candidate can get the vote if it is not turned down with a log that is good enough. -/
theorem mayVoteFor_iff [LawfulStorage σ] (s : DurableState σ) (candidate : ServerId) :
    s.MayVoteFor candidate ↔ (s.grantVote s.term candidate s.log.last).result ≠ .ok false := by
  unfold MayVoteFor grantVote
  rw [if_neg (not_not_intro rfl)]
  split
  · next hvote => exact iff_of_true (.inl hvote) nofun
  · next hvote =>
    split
    · next hvoted => exact iff_of_false (by simp [hvote, hvoted]) (not_not_intro rfl)
    · next hvoted =>
      rw [if_pos (show s.log.IsUpToDate s.log.last from Position.atLeast_refl _)]
      have hgives := s.gives_giveVote candidate
      generalize s.giveVote candidate = given at hgives ⊢
      refine iff_of_true (.inr (by omega)) ?_
      cases hgives <;> exact nofun

/-! ## What an operation leaves behind -/

variable [LawfulStorage σ]

/-- An operation that fails gives up the end of the log at most. -/
theorem Coherent.of_error {s : DurableState σ} (h : s.Coherent) {op : Operation} {e : EngineError}
    (herror : (s.perform op).result = .error e) :
    (s.perform op).state.ballot = s.ballot ∧ (s.perform op).state.votedTerm = s.votedTerm ∧
      (s.perform op).state.log.entries <+: s.log.entries := by
  have hperforms := (performs_perform h op).1
  generalize s.vote? op = vote, s.writes? op = write, s.perform op = performed
    at hperforms herror ⊢
  cases hperforms with
  | refuses => exact ⟨rfl, rfl, List.prefix_rfl⟩
  | cuts _ _ _ _ hlog => exact ⟨rfl, rfl, hlog⟩
  | stays | moves | votes | writes | loads => cases herror

/-- The disk is in doubt only after a write of the log that has failed. -/
theorem Coherent.unsyncedFrom_perform {s : DurableState σ} (h : s.Coherent) (op : Operation) :
    (s.perform op).state.unsyncedFrom = none ∨ s.writes? op = some false ∨
      s.writes? op = none ∧ (s.perform op).state.unsyncedFrom = s.unsyncedFrom := by
  have hperforms := (performs_perform h op).1
  generalize s.vote? op = vote, s.writes? op = write, s.perform op = performed at hperforms ⊢
  cases hperforms with
  | stays | refuses | moves | votes => exact .inr (.inr ⟨rfl, rfl⟩)
  | writes => exact .inl rfl
  | cuts => exact .inr (.inl rfl)
  | loads _ _ hload => exact .inl (load_fresh hload).1

/-- If the last write of the log has not failed, the disk is not in doubt. -/
theorem unsyncedFrom_after {s : DurableState σ} (h : s.Coherent) (hsynced : s.unsyncedFrom = none)
    (ops : List Operation) (hlast : (s.writes ops).getLast? ≠ some false) :
    (s.after ops).unsyncedFrom = none := by
  induction ops using List.reverseRecOn with
  | nil => exact hsynced
  | append_singleton ops op ih =>
    rw [writes, trace_concat] at hlast
    rw [after_append]
    rcases (h.after ops).unsyncedFrom_perform op with hnone | hfailed | ⟨hwrites, hsame⟩
    · exact hnone
    · rw [hfailed] at hlast
      simp at hlast
    · rw [hwrites, Option.toList_none, List.append_nil] at hlast
      exact hsame.trans (ih hlast)

/-! ## What can be read again -/

theorem readable_after [StaysReadable σ] {s : DurableState σ} (h : Readable s.disk)
    (ops : List Operation) : Readable (s.after ops).disk := by
  refine s.after_disk (fun disk change h => ?_) ops h
  cases change with
  | saveBallot ballot => exact StaysReadable.saveBallot disk ballot h
  | appendEntries entries => exact StaysReadable.appendEntries disk entries h
  | truncateFrom start => exact StaysReadable.truncateFrom disk start h

/-! ## Runs -/

/-- How memory stands to the disk after some operations. -/
structure WithinDisk (s : DurableState σ) (ops : List Operation) : Prop where
  ballot : (s.after ops).ballot = (contents (s.after ops).disk).ballot
  log : (s.after ops).log.entries <+: (contents (s.after ops).disk).log
  /-- The logs are the same, unless a write has failed and none has succeeded since. -/
  synced : (s.writes ops).getLast? ≠ some false →
    (s.after ops).log.entries = (contents (s.after ops).disk).log
  /-- An operation that fails changes neither the ballot nor who can get the vote. -/
  refused : ∀ op e, ((s.after ops).perform op).result = .error e →
    ((s.after ops).perform op).state.ballot = (s.after ops).ballot ∧
      ∀ candidate, ((s.after ops).perform op).state.MayVoteFor candidate ↔
        (s.after ops).MayVoteFor candidate
  /-- A restart loses nothing. -/
  reloads : ∃ loaded, DurableState.load (s.after ops).id (s.after ops).disk = .ok loaded ∧
    loaded.ballot = (s.after ops).ballot ∧ (s.after ops).log.entries <+: loaded.log.entries

/-- After any operations on a state that was loaded from a disk, memory is within the disk. -/
theorem within_disk [StaysReadable σ] {id : ServerId} {disk : σ} {s : DurableState σ}
    (hload : DurableState.load id disk = .ok s) (ops : List Operation) : s.WithinDisk ops := by
  have hloaded := (load_eq hload).2.2.2.2
  have hcoherent := hloaded.after ops
  constructor
  · exact hcoherent.ballot.symm
  · exact hcoherent.log
  · intro hlast
    exact (hcoherent.synced (unsyncedFrom_after hloaded (load_fresh hload).1 ops hlast)).symm
  · intro op e herror
    obtain ⟨hballot, hvoted, -⟩ := hcoherent.of_error herror
    refine ⟨hballot, fun candidate => ?_⟩
    rw [MayVoteFor, MayVoteFor, DurableState.vote, DurableState.term, hballot, hvoted]
  · have hreadable : Readable s.disk := (load_eq hload).2.1 ▸ readable_of_load hload
    exact hcoherent.exists_load (readable_after hreadable ops) _

/-- Two entries, one of which is to be replaced. -/
def replacement : List Operation :=
  [.adoptTerm 1, .appendCommand 1 [1], .appendCommand 1 [2], .append [⟨2, 2, [3]⟩] ⟨1, 1⟩]

/-- A disk that refuses to remove the entry that is to be replaced. -/
def stubborn : DurableState (Fated Contents) := unreliable [false, false, false, true]

/-- What could not be replaced is not in memory any more, but still on the disk. -/
theorem within_disk_replacement :
    stubborn.writes replacement = [true, true, false] ∧
      (stubborn.after replacement).log.entries = [⟨1, 1, [1]⟩] ∧
      (contents (stubborn.after replacement).disk).log = [⟨1, 1, [1]⟩, ⟨1, 2, [2]⟩] ∧
      stubborn.WithinDisk replacement :=
  ⟨by decide, by decide, by decide, within_disk (load_unreliable _) replacement⟩

end Quorum.DurableState
