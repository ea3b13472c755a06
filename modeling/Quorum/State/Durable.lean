import Quorum.Storage.Basic

set_option autoImplicit false

/-! # The state that survives a restart

A server's term, vote and log, in memory and on its disk. Every change is written to the disk
before anybody can see it, and a change that the disk refuses does not happen. For the ballot this
is plain: it is saved first and changed in memory afterwards.

For the log it takes more care, as one change is two calls to the disk: a suffix is removed, then
the new suffix is appended, and either can fail. After a failure the log in memory is cut back to
what is certainly on the disk, and `unsyncedFrom` remembers the index from which the disk may
differ. The next change of the log replaces everything on the disk from there on.

One vote is given per term. `votedTerm` is the last term in which a vote was given; it guards the
vote also when the ballot has been reset. -/

namespace Quorum

variable {σ : Type} [Storage σ]

/-- Term, vote and log of a server with its disk. -/
structure DurableState (σ : Type) where
  /-- The server whose state it is. -/
  id : ServerId
  ballot : Ballot
  /-- The last term in which a vote was given. -/
  votedTerm : Nat
  log : Log
  disk : σ
  /-- From which index on the disk may differ from the log, after a failed write. -/
  unsyncedFrom : Option Nat

/-- The latest term that the server has seen. -/
abbrev DurableState.term (s : DurableState σ) : Nat := s.ballot.term

/-- Who has the server's vote in the present term. -/
abbrev DurableState.vote (s : DurableState σ) : Option ServerId := s.ballot.vote

/-- Read the state from a disk; refused if the disk fails or holds no log. -/
def DurableState.load (id : ServerId) (disk : σ) : Except EngineError (DurableState σ) :=
  match Storage.loadBallot disk with
  | .error e => .error (.storage e)
  | .ok ballot =>
      match Storage.loadLog disk with
      | .error e => .error (.storage e)
      | .ok entries =>
          match Log.ofEntries entries with
          | .error e => .error e
          | .ok log =>
              let votedTerm := if ballot.vote.isSome then ballot.term else 0
              .ok { id, ballot, votedTerm, log, disk, unsyncedFrom := none }

/-! ## Term and vote -/

/-- Save a ballot, then adopt it. -/
def DurableState.saveBallot (s : DurableState σ) (ballot : Ballot) :
    Attempt EngineError Unit (DurableState σ) :=
  let saved := Storage.saveBallot s.disk ballot
  match saved.result with
  | .ok () => .ok () { s with ballot, disk := saved.state }
  | .error e => .error (.storage e) { s with disk := saved.state }

/-- Open the next term with a vote for the server itself; the answer is the new term. Arithmetic is
    checked: after the last term of 64 bits there is none, and the sum traps. -/
def DurableState.openTerm (s : DurableState σ) : Attempt EngineError Nat (DurableState σ) :=
  match Overflow.traps.add? s.term 1 with
  | none => .error (.illegalState .overflow) s
  | some term =>
      (s.saveBallot ⟨term, some s.id⟩).andThen fun _ s => .ok term { s with votedTerm := term }

/-- The next term, if there is one, is saved and then opened. -/
theorem DurableState.openTerm_of_lt {s : DurableState σ} (h : s.term + 1 < wordLimit) :
    s.openTerm =
      (s.saveBallot ⟨s.term + 1, some s.id⟩).andThen fun _ saved =>
        .ok (s.term + 1) { saved with votedTerm := s.term + 1 } := by
  unfold openTerm
  rw [Overflow.traps.add?_of_lt h]

theorem DurableState.openTerm_of_le {s : DurableState σ} (h : wordLimit ≤ s.term + 1) :
    s.openTerm = .error (.illegalState .overflow) s := by
  unfold openTerm Overflow.add?
  rw [if_neg (Nat.not_lt.2 h)]

/-- Move to a term that is not older than the present one, without a vote. -/
def DurableState.resetTerm (s : DurableState σ) (term : Nat) :
    Attempt EngineError Unit (DurableState σ) :=
  if term < s.term then .error (.invalidArgument (.termBelowCurrent term s.term)) s
  else s.saveBallot ⟨term, none⟩

/-- Adopt a term if it is newer than the present one; the answer tells whether it was. -/
def DurableState.adoptTerm (s : DurableState σ) (term : Nat) :
    Attempt EngineError Bool (DurableState σ) :=
  if term ≤ s.term then .ok false s
  else (s.saveBallot ⟨term, none⟩).andThen fun _ s => .ok true s

/-- Give the vote of the present term to `candidate`; refused if it was already given. -/
def DurableState.giveVote (s : DurableState σ) (candidate : ServerId) :
    Attempt EngineError Unit (DurableState σ) :=
  if s.term ≤ s.votedTerm then .error (.illegalState (.alreadyVoted s.term)) s
  else
    (s.saveBallot ⟨s.term, some candidate⟩).andThen fun _ s =>
      .ok () { s with votedTerm := s.term }

/-- Decide whether `candidate`, whose log ends at `last`, gets the vote of `term`. It does if this
    is the present term and it either has the vote already, or nobody has it and its log is at
    least as up to date as this one. -/
def DurableState.grantVote (s : DurableState σ) (term : Nat) (candidate : ServerId)
    (last : Position) : Attempt EngineError Bool (DurableState σ) :=
  if term ≠ s.term then .ok false s
  else if s.vote = some candidate then .ok true s
  else if s.term ≤ s.votedTerm then .ok false s
  else if s.log.IsUpToDate last then (s.giveVote candidate).andThen fun _ s => .ok true s
  else .ok false s

/-! ## The log -/

/-- Write the log from `start` on to the disk, whose log reaches to `stored` unless a write has
    failed. If the disk fails, the log is cut back to the part before what was to be written. -/
def DurableState.writeLogFrom (s : DurableState σ) (start stored : Nat) :
    Attempt EngineError Unit (DurableState σ) :=
  let first := (s.unsyncedFrom.map (min · start)).getD start
  let replaces := s.unsyncedFrom.isSome || first ≤ stored
  let kept := if replaces then Storage.truncateFrom s.disk first else .ok () s.disk
  let written := kept.andThen fun _ disk => Storage.appendEntries disk (s.log.entriesFrom first)
  match written.result with
  | .ok () => .ok () { s with disk := written.state, unsyncedFrom := none }
  | .error e =>
      .error (.storage e)
        { s with
          disk := written.state
          log := s.log.truncateAfter (first - 1)
          unsyncedFrom := some first }

/-- Take over a batch from a leader and write what it changed. -/
def DurableState.append (s : DurableState σ) (batch : List Entry) (prev : Position) :
    Attempt EngineError AppendOutcome (DurableState σ) :=
  match s.log.append batch prev with
  | (.accepted lastNew (some first), log) =>
      (({ s with log }).writeLogFrom first s.log.length).andThen fun _ s =>
        .ok (.accepted lastNew (some first)) s
  | (outcome, log) => .ok outcome { s with log }

/-- Put a command at the end of the log and write it, if `term` is still the present term. -/
def DurableState.appendCommand (s : DurableState σ) (term : Nat) (command : Bytes) :
    Attempt EngineError (Option Entry) (DurableState σ) :=
  if s.term ≠ term then .ok none s
  else
    let entry := s.log.next term command
    (({ s with log := s.log.push term command }).writeLogFrom entry.index s.log.length).andThen
      fun _ s => .ok (some entry) s

end Quorum
