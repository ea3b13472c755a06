import Quorum.Rpc.Call

set_option autoImplicit false

/-! # Counting votes

A candidate asks all its peers at once and counts what comes back: votes, the largest term, and
how many calls are over. A call that failed is over without a vote and without a term. The
candidate's own vote is not counted here. -/

namespace Quorum

/-- The state of a round of votes. -/
structure Tally where
  /-- How many peers were asked. -/
  asked : Nat
  /-- How many have given their vote. -/
  votes : Nat
  /-- The largest term in a reply. -/
  largestTerm : Nat
  /-- How many calls are over. -/
  completed : Nat
  deriving DecidableEq, Repr

/-- Nothing has come back from `asked` peers. -/
def Tally.start (asked : Nat) : Tally := ⟨asked, 0, 0, 0⟩

/-- Count what became of a call. -/
def Tally.count (tally : Tally) : Except CallError VoteReply → Tally
  | .ok reply =>
      { tally with
        completed := tally.completed + 1
        largestTerm := max tally.largestTerm reply.term
        votes := if reply.granted then tally.votes + 1 else tally.votes }
  | .error _ => { tally with completed := tally.completed + 1 }

/-- Whether all calls are over. -/
def Tally.isComplete (tally : Tally) : Bool := tally.asked ≤ tally.completed

/-- Whether the votes and the candidate's own are more than half of `clusterSize`. -/
def Tally.isWon (tally : Tally) (clusterSize : Nat) : Bool := clusterSize < (tally.votes + 1) * 2

end Quorum
