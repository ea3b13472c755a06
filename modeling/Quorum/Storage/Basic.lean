import Quorum.Log

set_option autoImplicit false

/-! # What a server keeps on its disk

A server must not forget three things over a restart: the latest term it has seen, the member it
gave its vote to in that term, and its log. `Contents` is this knowledge as a value; `Storage` is
what any disk offers for it. A disk may refuse any call. The entries on a disk are just a list: a
disk does not check their indices, so it can hold a list that is no log. -/

namespace Quorum

/-- The latest term, and who has the vote of this term. -/
structure Ballot where
  term : Nat
  vote : Option ServerId
  deriving DecidableEq, Repr

/-- The ballot of a server that has never heard of an election. -/
def Ballot.blank : Ballot := ⟨0, none⟩

/-- Everything that a disk holds for a server. -/
structure Contents where
  ballot : Ballot
  log : List Entry
  deriving DecidableEq, Repr

/-- The contents of a fresh disk. -/
def Contents.blank : Contents := ⟨.blank, []⟩

/-- Another ballot, the same log. -/
def Contents.saveBallot (contents : Contents) (ballot : Ballot) : Contents :=
  { contents with ballot }

/-- More entries behind those already there. -/
def Contents.appendEntries (contents : Contents) (entries : List Entry) : Contents :=
  { contents with log := contents.log ++ entries }

/-- Without the entries whose index is `start` or more. -/
def Contents.truncateFrom (contents : Contents) (start : Nat) : Contents :=
  { contents with log := contents.log.filter (·.index < start) }

/-- What a disk offers. Every call leaves a disk behind, also one that fails. -/
class Storage (σ : Type) where
  /-- Replace the ballot. -/
  saveBallot : σ → Ballot → Attempt DiskError Unit σ
  /-- The ballot that was saved last; the blank one if there was none. -/
  loadBallot : σ → Except DiskError Ballot
  /-- Put entries behind those already there. -/
  appendEntries : σ → List Entry → Attempt DiskError Unit σ
  /-- All entries. -/
  loadLog : σ → Except DiskError (List Entry)
  /-- Remove the entries whose index is `start` or more. -/
  truncateFrom : σ → Nat → Attempt DiskError Unit σ

/-! ## A disk in memory -/

/-- The contents themselves are a disk on which every call succeeds. -/
instance : Storage Contents where
  saveBallot contents ballot := .ok () (contents.saveBallot ballot)
  loadBallot contents := .ok contents.ballot
  appendEntries contents entries := .ok () (contents.appendEntries entries)
  loadLog contents := .ok contents.log
  truncateFrom contents start := .ok () (contents.truncateFrom start)

end Quorum
