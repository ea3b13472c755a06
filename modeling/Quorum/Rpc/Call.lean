import Quorum.Error
import Quorum.Message

set_option autoImplicit false

/-! # Calls to peers

A server calls a peer with one of two requests and gets the matching reply or an error. A leader
remembers with each call what it has sent, so that the outcome can be understood when it comes,
in whatever order outcomes come. -/

namespace Quorum

/-- What a peer can be asked. -/
inductive Request where
  | vote (request : VoteRequest)
  | append (request : AppendRequest)
  deriving DecidableEq, Repr

/-- The term of the one who asks. -/
def Request.term : Request → Nat
  | .vote request => request.term
  | .append request => request.term

/-- A request and the peer it goes to. -/
structure Call where
  target : ServerId
  request : Request
  deriving DecidableEq, Repr

/-- How a call ended, with what was asked. -/
inductive Outcome where
  | vote (request : VoteRequest) (result : Except CallError VoteReply)
  | append (request : AppendRequest) (result : Except CallError AppendReply)

/-- The end of a call that failed. -/
def Request.failed (request : Request) (error : CallError) : Outcome :=
  match request with
  | .vote request => .vote request (.error error)
  | .append request => .append request (.error error)

/-- What became of entries that a leader has sent, with what they were. -/
structure AppendReport where
  peer : ServerId
  /-- The index before the entries. -/
  prevIndex : Nat
  /-- The index of the last of the entries. -/
  lastIndex : Nat
  result : Except CallError AppendReply

/-- The report on a request that was sent to `peer`. -/
def AppendRequest.report (request : AppendRequest) (peer : ServerId)
    (result : Except CallError AppendReply) : AppendReport :=
  { peer, prevIndex := request.prev.index, lastIndex := request.lastIndex, result }

end Quorum
