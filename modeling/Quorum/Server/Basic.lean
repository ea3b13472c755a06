import Quorum.Rpc.Tally
import Quorum.State.Durable
import Quorum.State.Volatile
import Quorum.Timer

set_option autoImplicit false

/-! # A server and its role

A server is in one of three roles. A follower answers requests and waits for its election timer. A
candidate runs rounds of votes, a leader replicates its log; each of the two is driven by a control
loop, whose state is part of the role.

A loop notices that it has been stopped only when it is its turn. So a role that is given up goes
to the list of `retired` ones and stays there until its loop has ended. Whatever a server does is
a step of `Server`: a request that arrives, the timer, the end of a call, or a turn of a loop. -/

namespace Quorum

/-! ## Candidates -/

/-- Where the loop of a candidate stands. -/
inductive Candidate.Phase where
  /-- It is about to open its first round. -/
  | starting
  /-- A round of votes is open for this term. -/
  | counting (term : Nat) (tally : Tally)
  /-- The round has brought no decision; the next one is opened on a timeout. -/
  | waiting
  /-- The loop has ended. -/
  | ended
  deriving DecidableEq, Repr

/-- The state of a candidate. -/
structure Candidate where
  phase : Candidate.Phase
  /-- The election timer has run out since the present round was opened. -/
  timedOut : Bool
  /-- The loop is to end. -/
  stopped : Bool
  deriving DecidableEq, Repr

/-- A candidate that has not done anything yet. -/
def Candidate.fresh (stopped : Bool) : Candidate := ⟨.starting, false, stopped⟩

/-! ## Leaders -/

/-- What a leader knows about the log of a peer. -/
structure Progress where
  /-- The index of the next entry to send. -/
  next : Nat
  /-- The last index up to which the peer's log is known to agree. -/
  matched : Nat
  /-- Entries have been sent whose outcome is not yet known. -/
  inFlight : Bool
  deriving DecidableEq, Repr

/-- Where the loop of a leader stands. -/
inductive Leader.Phase where
  /-- It has not looked at the log yet. -/
  | starting
  /-- It replicates, and the next heartbeat is due at the given instant. -/
  | running (peers : List (ServerId × Progress)) (nextBeat : Nat)
  /-- The loop has ended. -/
  | ended
  deriving DecidableEq, Repr

/-- The state of a leader. -/
structure Leader where
  /-- The term that it leads. -/
  term : Nat
  phase : Leader.Phase
  /-- There is something new to replicate. -/
  awake : Bool
  /-- The loop is to end. -/
  stopped : Bool
  deriving DecidableEq, Repr

/-- A leader that has not done anything yet. -/
def Leader.fresh (term : Nat) (stopped : Bool) : Leader := ⟨term, .starting, false, stopped⟩

/-! ## Roles -/

/-- The role of a server, with the state of the loop that goes with it. -/
inductive Role where
  | follower
  | candidate (state : Candidate)
  | leader (state : Leader)
  deriving DecidableEq, Repr

/-- The role without its state. -/
inductive Mode where
  | follower
  | candidate
  | leader
  deriving DecidableEq, Repr

/-- How a mode is called. -/
def Mode.label : Mode → String
  | .follower => "follower"
  | .candidate => "candidate"
  | .leader => "leader"

/-- Which role it is. -/
def Role.mode : Role → Mode
  | .follower => .follower
  | .candidate _ => .candidate
  | .leader _ => .leader

/-- Tell the loop to end. -/
def Role.stop : Role → Role
  | .follower => .follower
  | .candidate state => .candidate { state with stopped := true }
  | .leader state => .leader { state with stopped := true }

/-- Whether a loop goes with the role that has not ended yet. -/
def Role.isLive : Role → Bool
  | .follower => false
  | .candidate state => state.phase ≠ .ended
  | .leader state => state.phase ≠ .ended

/-- Whether it is the role of the leader of a term. -/
def Role.leads (role : Role) (term : Nat) : Bool :=
  match role with
  | .leader state => state.term == term
  | _ => false

/-! ## Servers -/

/-- A server with a disk of type `σ` and a state machine of type `μ`. -/
structure Server (σ μ : Type) where
  config : Configuration
  /-- The peers that it has channels to, in ascending order. -/
  peers : List ServerId
  durable : DurableState σ
  volatile : VolatileState
  machine : μ
  timer : ElectionTimer
  /-- Timeouts that the timer has left and nobody has looked at, oldest first. -/
  timeouts : List Timeout
  role : Role
  /-- Roles that were given up and whose loops have not ended. -/
  retired : List Role
  isShutDown : Bool

namespace Server

variable {σ μ : Type}

/-- The server's own identity. -/
abbrev id (s : Server σ μ) : ServerId := s.config.self

/-- The latest term that the server has seen. -/
abbrev term (s : Server σ μ) : Nat := s.durable.term

/-- The log in memory. -/
abbrev log (s : Server σ μ) : Log := s.durable.log

/-- The role without its state. -/
def mode (s : Server σ μ) : Mode := s.role.mode

/-- Start a server as a follower, from what its disk holds. It needs a valid configuration and
    channels to exactly its peers. -/
def start [Storage σ] (clock : Clock) (config : Configuration) (channels : List ServerId)
    (disk : σ) (machine : μ) : Except EngineError (Server σ μ) := do
  config.validate
  let peers ← config.connect channels
  let durable ← DurableState.load config.self disk
  let timer := clock.restart .idle
  .ok
    { config, peers, durable, volatile := .initial, machine, timer, timeouts := [],
      role := .follower, retired := [], isShutDown := false }

/-- Apply what is committed and not yet applied. -/
def applyEntries [StateMachine μ] (s : Server σ μ) : Attempt EngineError Nat (Server σ μ) :=
  (applyCommitted s.log s.volatile s.machine).within fun (volatile, machine) =>
    { s with volatile, machine }

/-! ## Giving up a role -/

/-- Keep a role that was given up until its loop has ended. -/
def retire (s : Server σ μ) (role : Role) : Server σ μ :=
  if role.isLive then { s with retired := s.retired ++ [role.stop] } else s

/-- Become a follower: the present loop is told to end, a leader is no longer known if it was this
    server, and the election timer starts anew unless the server is shut down. -/
def becomeFollower (clock : Clock) (s : Server σ μ) : Server σ μ :=
  match s.role with
  | .follower => s
  | role =>
      let s := s.retire role
      { s with
        volatile := if role.mode = .leader then s.volatile.clearLeader else s.volatile
        role := .follower
        timer := if s.isShutDown then s.timer else clock.restart s.timer }

/-- Adopt a term if it is newer than the present one, and become a follower then. -/
def stepDown [Storage σ] (clock : Clock) (term : Nat) (s : Server σ μ) :
    Attempt EngineError Bool (Server σ μ) :=
  let adopted := s.durable.adoptTerm term
  let s := { s with durable := adopted.state }
  match adopted.result with
  | .error e => .error e s
  | .ok false => .ok false s
  | .ok true => .ok true (s.becomeFollower clock)

/-- Become a candidate, if the server is a follower and not shut down. -/
def becomeCandidate (s : Server σ μ) : Server σ μ :=
  if s.isShutDown then s
  else
    match s.role with
    | .follower => { s with role := .candidate (.fresh s.isShutDown) }
    | _ => s

/-- The loop of the present role has failed: back to being a follower, whose timer gives it
    another try. A server that is shut down stays in its role. -/
def recover (clock : Clock) (s : Server σ μ) : Server σ μ :=
  if s.isShutDown then s else s.becomeFollower clock

/-- Stop for good: the present loop is told to end and the timer is cancelled. The role stays, and
    so do the answers to requests. -/
def shutDown (s : Server σ μ) : Server σ μ :=
  if s.isShutDown then s
  else { s with isShutDown := true, role := s.role.stop, timer := s.timer.cancel }

end Server

end Quorum
