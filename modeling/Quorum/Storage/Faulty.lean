import Quorum.Storage.Basic

set_option autoImplicit false

/-! # A disk that can be made to fail

`Faulty σ` is a disk of kind `σ` with a switch for each kind of call. A call whose switch is on
fails as a full disk does, and changes nothing. -/

namespace Quorum

/-- Which calls fail at present. -/
structure Failures where
  /-- Saving the ballot. -/
  save : Bool
  /-- Appending entries. -/
  append : Bool
  /-- Truncating the log. -/
  truncate : Bool
  /-- Loading, of the ballot and of the log. -/
  load : Bool
  deriving DecidableEq, Repr

/-- No call fails. -/
def Failures.none : Failures := ⟨false, false, false, false⟩

/-- A disk with its switches. -/
structure Faulty (σ : Type) where
  disk : σ
  failures : Failures

/-- The error of a call that is switched to fail. -/
def diskFull : DiskError := .other "disk full"

/-- Change a disk, unless this call is switched to fail. -/
def Faulty.change {σ : Type} (s : Faulty σ) (fails : Bool)
    (call : σ → Attempt DiskError Unit σ) : Attempt DiskError Unit (Faulty σ) :=
  if fails then .error diskFull s else (call s.disk).within fun disk => { s with disk }

instance {σ : Type} [Storage σ] : Storage (Faulty σ) where
  saveBallot s ballot := s.change s.failures.save (Storage.saveBallot · ballot)
  loadBallot s := if s.failures.load then .error diskFull else Storage.loadBallot s.disk
  appendEntries s entries := s.change s.failures.append (Storage.appendEntries · entries)
  loadLog s := if s.failures.load then .error diskFull else Storage.loadLog s.disk
  truncateFrom s start := s.change s.failures.truncate (Storage.truncateFrom · start)

end Quorum
