import Quorum.Server.Basic

set_option autoImplicit false

/-! # Answering requests

What a server does with the requests of its peers and of clients. A request with a newer term
first makes the server a follower of that term. Followers and candidates decide on votes in the
same way; only a follower takes entries, and a candidate that is sent some in its own term concedes
the election first. A leader refuses both, as nobody else can ask in its term. -/

namespace Quorum.Server

variable {σ μ : Type} [Storage σ]

/-! ## Votes -/

/-- Decide on a vote. A candidate of an older term is told the present one. -/
def decideVote (request : VoteRequest) (s : Server σ μ) :
    Attempt EngineError VoteReply (Server σ μ) :=
  if request.term < s.term then .ok ⟨s.term, false⟩ s
  else
    let decided := s.durable.grantVote request.term request.candidate request.last
    let s := { s with durable := decided.state }
    match decided.result with
    | .error e => .error e s
    | .ok granted => .ok ⟨s.term, granted⟩ s

/-- Answer a candidate. A follower that gives its vote waits for the outcome of the election, so
    its timer starts anew. -/
def answerVote (clock : Clock) (request : VoteRequest) (s : Server σ μ) :
    Attempt EngineError VoteReply (Server σ μ) :=
  match s.role with
  | .follower =>
      (s.decideVote request).andThen fun reply s =>
        .ok reply (if reply.granted then { s with timer := clock.restart s.timer } else s)
  | .candidate _ => s.decideVote request
  | .leader leader =>
      .error
        (.preconditionFailed (.leaderAskedToVote leader.term request.candidate request.term)) s

/-- Handle the request of a candidate. -/
def requestVote (clock : Clock) (request : VoteRequest) (s : Server σ μ) :
    Attempt EngineError VoteReply (Server σ μ) :=
  (s.stepDown clock request.term).andThen fun _ s => s.answerVote clock request

/-! ## Entries -/

variable [StateMachine μ]

/-- The answer to a leader that the entries were not taken. -/
def refuseEntries (s : Server σ μ) (term : Nat) : AppendReply := ⟨term, false, s.log.last.index⟩

/-- Take entries as a follower. Whoever leads the present term is the leader, and the election
    timer starts anew, also if the entries do not fit. If they do, what the leader has committed of
    them is applied. -/
def takeEntries (clock : Clock) (request : AppendRequest) (s : Server σ μ) :
    Attempt EngineError AppendReply (Server σ μ) :=
  let term := s.term
  if request.term < term then .ok (s.refuseEntries term) s
  else
    let taken := s.durable.append request.entries request.prev
    let s :=
      { s with
        timer := clock.restart s.timer
        volatile := s.volatile.setLeader request.leader
        durable := taken.state }
    match taken.result with
    | .error e => .error e s
    | .ok .rejected => .ok (s.refuseEntries term) s
    | .ok (.accepted lastNew _) =>
        let (moved, volatile) := s.volatile.advanceCommitted (min request.commit lastNew)
        let s := { s with volatile }
        if moved then s.applyEntries.andThen fun _ s => .ok ⟨term, true, lastNew⟩ s
        else .ok ⟨term, true, lastNew⟩ s

/-- Give up an election that another server has won. The loop is stopped first. -/
def concede (clock : Clock) (term : Nat) (s : Server σ μ) :
    Attempt EngineError Unit (Server σ μ) :=
  let s := { s with role := s.role.stop }
  let adopted := s.durable.adoptTerm term
  let s := { s with durable := adopted.state }
  match adopted.result with
  | .error e => .error e s
  | .ok _ => .ok () (s.becomeFollower clock)

/-- Answer a leader. -/
def answerEntries (clock : Clock) (request : AppendRequest) (s : Server σ μ) :
    Attempt EngineError AppendReply (Server σ μ) :=
  match s.role with
  | .follower => s.takeEntries clock request
  | .candidate _ =>
      if request.term < s.term then .ok (s.refuseEntries s.term) s
      else (s.concede clock request.term).andThen fun _ s => s.takeEntries clock request
  | .leader leader =>
      .error
        (.preconditionFailed (.leaderSentEntries leader.term request.leader request.term)) s

/-- Handle the request of a leader. -/
def appendEntries (clock : Clock) (request : AppendRequest) (s : Server σ μ) :
    Attempt EngineError AppendReply (Server σ μ) :=
  (s.stepDown clock request.term).andThen fun _ s => s.answerEntries clock request

/-! ## Commands -/

omit [StateMachine μ] in
/-- Take a client's command into the log, if the server leads and its loop is not to end. The loop
    is woken to replicate it. -/
def submit (command : Bytes) (s : Server σ μ) : Attempt EngineError SubmitReply (Server σ μ) :=
  match s.role with
  | .leader leader =>
      if leader.stopped then .ok (.notLeader s.volatile.leader) s
      else
        let appended := s.durable.appendCommand leader.term command
        let s := { s with durable := appended.state }
        match appended.result with
        | .error e => .error e s
        | .ok none => .ok (.notLeader s.volatile.leader) s
        | .ok (some entry) =>
            .ok (.success entry.index entry.term)
              { s with role := .leader { leader with awake := true } }
  | _ => .ok (.notLeader s.volatile.leader) s

end Quorum.Server
