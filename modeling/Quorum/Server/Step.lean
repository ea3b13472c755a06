import Quorum.Server.Election
import Quorum.Server.Replication
import Quorum.Server.Requests

set_option autoImplicit false

/-! # Steps of a server

Everything that can happen to a running server, one event at a time. A step gives the answer to
the one who asked, if somebody did, the calls that it makes, and the server after it.

A server never waits inside a step. What it may do next by itself, without anything from outside
but the passing of time, are its `pending` events. -/

namespace Quorum

/-- Something that happens to a server. -/
inductive Event where
  /-- A candidate asks for a vote. -/
  | requestVote (request : VoteRequest)
  /-- A leader sends entries. -/
  | appendEntries (request : AppendRequest)
  /-- A client submits a command. -/
  | submit (command : Bytes)
  /-- A request for votes of the given term has come to an end. -/
  | voteResult (term : Nat) (result : Except CallError VoteReply)
  /-- A request of the leader of the given term has come to an end. -/
  | appendResult (term : Nat) (report : AppendReport)
  /-- The election timer runs out. -/
  | timerFires
  /-- The oldest timeout is looked at. -/
  | takeTimeout
  /-- The loop of the present role has a turn; a leader's takes the given branch. -/
  | turn (branch : Branch)
  /-- The loop of a role that was given up has a turn. -/
  | retiredTurn (place : Nat) (branch : Branch)
  /-- The server is shut down. -/
  | shutDown

/-- What the one who asked is told. -/
inductive Answer where
  /-- Nobody has asked. -/
  | none
  | vote (result : Except EngineError VoteReply)
  | append (result : Except EngineError AppendReply)
  | submit (result : Except EngineError SubmitReply)

/-- The reply to a candidate among answers. -/
def Answer.voteReply : Answer → Except EngineError VoteReply
  | .vote result => result
  | _ => .error (.illegalState (.other "no vote was decided"))

/-- The reply to a leader among answers. -/
def Answer.appendReply : Answer → Except EngineError AppendReply
  | .append result => result
  | _ => .error (.illegalState (.other "no entries were taken"))

/-- What an outcome is to the server that has called. -/
def Outcome.event (callee : ServerId) : Outcome → Event
  | .vote request result => .voteResult request.term result
  | .append request result => .appendResult request.term (request.report callee result)

/-- The result of a step. -/
structure StepResult (σ μ : Type) where
  answer : Answer
  calls : List Call
  server : Server σ μ

/-- Something that a server will do by itself at a later instant. -/
structure Alarm where
  due : Nat
  /-- When the alarm was set. -/
  since : Nat
  event : Event

namespace Server

variable {σ μ : Type} [Storage σ] [StateMachine μ]

/-- A turn of the loop of the present role; a follower has none. -/
def runRole (clock : Clock) (branch : Branch) (s : Server σ μ) : List Call × Server σ μ :=
  match s.role with
  | .follower => ([], s)
  | .candidate candidate => s.candidateTurn clock candidate
  | .leader leader => s.runLeader clock branch leader

/-- Hand the outcome of a leader's request to the loop of that leader, which may be a retired one;
    if it has ended, nobody is interested any more. -/
def handOutcome (clock : Clock) (term : Nat) (report : AppendReport) (s : Server σ μ) :
    List Call × Server σ μ :=
  if s.role.leads term then s.runRole clock (.outcome report)
  else
    match s.retired.findIdx? (·.leads term) with
    | some i => s.runRetired clock (.outcome report) i
    | none => ([], s)

/-- One event. -/
def step (clock : Clock) (event : Event) (s : Server σ μ) : StepResult σ μ :=
  match event with
  | .requestVote request =>
      let a := s.requestVote clock request
      ⟨.vote a.result, [], a.state⟩
  | .appendEntries request =>
      let a := s.appendEntries clock request
      ⟨.append a.result, [], a.state⟩
  | .submit command =>
      let a := s.submit command
      ⟨.submit a.result, [], a.state⟩
  | .voteResult term result => ⟨.none, [], s.countVote term result⟩
  | .appendResult term report =>
      let (calls, s) := s.handOutcome clock term report
      ⟨.none, calls, s⟩
  | .timerFires => ⟨.none, [], s.fireTimer⟩
  | .takeTimeout => ⟨.none, [], s.takeTimeout⟩
  | .turn branch =>
      let (calls, s) := s.runRole clock branch
      ⟨.none, calls, s⟩
  | .retiredTurn place branch =>
      let (calls, s) := s.runRetired clock branch place
      ⟨.none, calls, s⟩
  | .shutDown => ⟨.none, [], s.shutDown⟩

/-! ## What is pending -/

/-- Whether a turn of a candidate's loop would do anything. -/
def candidateIsReady (s : Server σ μ) (candidate : Candidate) : Bool :=
  match candidate.phase with
  | .ended => false
  | .starting => true
  | .counting term tally =>
      candidate.stopped || term < tally.largestTerm || tally.isWon s.config.clusterSize
        || tally.isComplete || candidate.timedOut
  | .waiting => candidate.stopped || candidate.timedOut

/-- The branches that the loop of a leader may take at an instant. A loop that is to end may take
    any other of them before. -/
def leaderBranches (now : Nat) (leader : Leader) : List Branch :=
  match leader.phase with
  | .ended => []
  | .starting => [.stop]
  | .running _ nextBeat =>
      (if nextBeat ≤ now then [.beat] else []) ++ (if leader.awake then [.wake] else []) ++
        (if leader.stopped then [.stop] else [])

/-- The branches that the loop of a role may take at an instant. -/
def branches (now : Nat) (s : Server σ μ) : Role → List Branch
  | .follower => []
  | .candidate candidate => if s.candidateIsReady candidate then [.stop] else []
  | .leader leader => leaderBranches now leader

/-- All that the server may do by itself at an instant. Any of it may come first. -/
def pending (now : Nat) (s : Server σ μ) : List Event :=
  (s.retired.zipIdx.flatMap fun (role, place) => (s.branches now role).map (.retiredTurn place)) ++
    (if !s.isShutDown && !s.timeouts.isEmpty then [.takeTimeout] else []) ++
    (if s.timer.isDue now then [.timerFires] else []) ++
    (s.branches now s.role).map .turn

/-- What the passing of time alone will bring the server to do. -/
def alarms (s : Server σ μ) : List Alarm :=
  let timer : List Alarm :=
    match s.timer.due with
    | some due => [⟨due, due - s.config.electionTimeout.minimum, .timerFires⟩]
    | none => []
  match s.role with
  | .leader ⟨_, .running _ due, _, false⟩ =>
      ⟨due, due - s.config.heartbeat, .turn .beat⟩ :: timer
  | _ => timer

end Server

end Quorum
