import Quorum.Rpc.Tally
import Quorum.Simulation.Wire

set_option autoImplicit false

/-! # Calling scripted peers

The two ways in which a server calls its peers, by themselves: a round of votes, whose tally grows
with what comes back, and the requests of a leader, each of which brings one report. All peers
follow scripts, so that a call can end but sends no new one. -/

namespace Quorum.Simulation

/-! ## Both ways -/

/-- Everything that ends up to the instant `limit`, in order. The first argument bounds the number
    of calls, none of which can end twice. -/
def endings (limit : Nat) : Nat → Wire → List (ServerId × Outcome) × Wire
  | 0, wire => ([], wire.waitUntil limit)
  | bound + 1, wire =>
      match Wire.earliest? (fun _ => true) wire.flights with
      | none => ([], wire.waitUntil limit)
      | some (flight, others) =>
          if limit < flight.dueAt then ([], wire.waitUntil limit)
          else
            match wire.land flight others with
            | (.delivered _ _, wire) => endings limit bound wire
            | (.ended flight outcome, wire) =>
                let (later, wire) := endings limit bound wire
                ((flight.callee, outcome) :: later, wire)

/-- Let time pass up to the instant `limit`; with the calls that end until then. -/
def Wire.pass (wire : Wire) (limit : Nat) : List (ServerId × Outcome) × Wire :=
  endings limit wire.flights.length wire

/-! ## A round of votes -/

/-- A round of votes with the calls that belong to it. -/
structure Poll where
  wire : Wire
  tally : Tally

/-- Ask all peers of a candidate. -/
def Poll.ask (wire : Wire) (peers : List ServerId) (timeout : Nat) (request : VoteRequest) :
    Poll :=
  { wire := peers.foldl
      (fun wire peer => wire.sendToScript request.candidate timeout ⟨peer, .vote request⟩) wire
    tally := .start peers.length }

/-- Count the end of a call, if it was one for a vote. -/
def countOutcome (tally : Tally) : Outcome → Tally
  | .vote _ result => tally.count result
  | .append .. => tally

/-- Let time pass up to the instant `limit`. -/
def Poll.pass (poll : Poll) (limit : Nat) : Poll :=
  let (ended, wire) := poll.wire.pass limit
  { wire, tally := ended.foldl (fun tally (_, outcome) => countOutcome tally outcome) poll.tally }

/-! ## Requests of a leader -/

/-- A leader's way to its peers. -/
structure Courier where
  wire : Wire
  leader : ServerId
  peers : List ServerId
  timeout : Nat
  /-- What becomes of a last index that 64 bits cannot hold. -/
  overflow : Overflow := .wraps

/-- Send entries to a peer; nothing is sent to anybody else, as the answer tells. The call is left
    to a task of its own, which works out the last index first. If the sum traps, the task dies
    before it has sent anything, but the answer is given by then. -/
def Courier.send (courier : Courier) (peer : ServerId) (request : AppendRequest) :
    Bool × Courier :=
  if courier.peers.contains peer then
    match courier.overflow.add? request.prev.index request.entries.length with
    | none => (true, courier)
    | some _ =>
        (true,
          { courier with
            wire := courier.wire.sendToScript courier.leader courier.timeout
              ⟨peer, .append request⟩ })
  else (false, courier)

/-- The report on a call that has ended, if it sent entries. -/
def report? : ServerId × Outcome → Option AppendReport
  | (peer, .append request result) =>
      some { request.report peer result with lastIndex := request.lastWord }
  | (_, .vote ..) => none

/-- Let time pass up to the instant `limit`; with the reports that come until then. -/
def Courier.pass (courier : Courier) (limit : Nat) : List AppendReport × Courier :=
  let (ended, wire) := courier.wire.pass limit
  (ended.filterMap report?, { courier with wire })

end Quorum.Simulation
