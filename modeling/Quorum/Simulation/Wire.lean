import Quorum.Simulation.Script

set_option autoImplicit false

/-! # Calls on their way

The wire holds the clock of a simulation and all calls that have not ended. A call to a scripted
peer ends when its script says so. A call to a server is on its way to it, and later on its way
back with what became of it. A call that has not ended by its deadline ends with a timeout, and
nothing more happens of it; at the deadline itself a reply still counts.

The wire also records what an observer sees: requests when they are sent and replies when they come
back. A call that runs into its deadline has no reply to be seen. -/

namespace Quorum.Simulation

/-! ## What an observer sees -/

/-- A request that is sent, or the end of a call that comes back. -/
inductive Sight where
  | sent (request : Request)
  | received (outcome : Outcome)

/-- Something seen at an instant, between the one who calls and the one who is called. -/
structure Sighting where
  time : Nat
  caller : ServerId
  callee : ServerId
  sight : Sight

/-- Whether it is about entries and not about a vote. -/
def Sight.isAppend : Sight → Bool
  | .sent (.vote _) => false
  | .sent (.append _) => true
  | .received (.vote ..) => false
  | .received (.append ..) => true

/-- The order in which sightings are reported: by instant, caller and callee, and votes before
    entries. -/
def Sighting.key (s : Sighting) : List Nat :=
  [s.time, s.caller.number, s.callee.number, s.sight.isAppend.toNat]

/-- Sightings in the order of their keys; those with the same key stay in the order in which they
    were seen. -/
def sortSightings (sightings : List Sighting) : List Sighting :=
  sightings.mergeSort fun a b => !b.key.lex a.key Nat.blt

/-! ## Calls on their way -/

/-- Where a call is. -/
inductive Stage where
  /-- Nothing will come back. -/
  | silent (request : Request)
  /-- On its way to a server, where it arrives at the given instant. -/
  | outbound (arrival : Nat) (request : Request)
  /-- On its way back, to arrive at the given instant. -/
  | inbound (arrival : Nat) (outcome : Outcome)

/-- What was asked. -/
def Stage.request : Stage → Request
  | .silent request => request
  | .outbound _ request => request
  | .inbound _ (.vote request _) => .vote request
  | .inbound _ (.append request _) => .append request

/-- A call that has not ended. -/
structure Flight where
  caller : ServerId
  callee : ServerId
  deadline : Nat
  stage : Stage
  /-- When the call came to this stage. -/
  since : Nat

/-- When something happens of the call next. -/
def Flight.dueAt (flight : Flight) : Nat :=
  match flight.stage with
  | .silent _ => flight.deadline
  | .outbound arrival _ => min arrival flight.deadline
  | .inbound arrival _ => min arrival flight.deadline

/-- What happens of a call when it is due. -/
inductive Arrival where
  /-- The request arrives at the server that is called. -/
  | delivered (flight : Flight) (request : Request)
  /-- The call ends. -/
  | ended (flight : Flight) (outcome : Outcome)

/-- Whether the request is about to arrive, so that somebody has to handle it. -/
def Flight.isDelivery (flight : Flight) : Bool :=
  match flight.stage with
  | .outbound arrival _ => arrival ≤ flight.deadline
  | _ => false

/-- What happens of the call next. -/
def Flight.arrival (flight : Flight) : Arrival :=
  let late : Arrival :=
    .ended flight (flight.stage.request.failed (.timeout flight.callee))
  match flight.stage with
  | .silent _ => late
  | .outbound arrival request =>
      if arrival ≤ flight.deadline then .delivered flight request else late
  | .inbound arrival outcome => if arrival ≤ flight.deadline then .ended flight outcome else late

/-! ## The wire -/

/-- The clock, the calls on their way and what was seen. -/
structure Wire where
  now : Nat
  /-- In the order in which they were sent. -/
  flights : List Flight
  /-- The scripts of the members that are no servers. -/
  scripts : List (ServerId × Script)
  /-- What was seen since the last report, the latest first. -/
  seen : List Sighting

namespace Wire

/-- A wire at the beginning of time. -/
def initial (scripts : List (ServerId × Script)) : Wire := ⟨0, [], scripts, []⟩

/-- The script of a member. -/
def script (wire : Wire) (id : ServerId) : Script := (wire.scripts.lookup id).getD .silent

/-- Replace the script of a member. -/
def setScript (wire : Wire) (id : ServerId) (script : Script) : Wire :=
  { wire with scripts := (id, script) :: wire.scripts.filter (·.1 ≠ id) }

/-- Record something that is seen now. -/
def see (wire : Wire) (caller callee : ServerId) (sight : Sight) : Wire :=
  { wire with seen := ⟨wire.now, caller, callee, sight⟩ :: wire.seen }

/-- What was seen since the last report, in the order of a report. -/
def report (wire : Wire) : List Sighting × Wire :=
  (sortSightings wire.seen.reverse, { wire with seen := [] })

/-- Put a call on its way. -/
def launch (wire : Wire) (caller callee : ServerId) (timeout : Nat) (stage : Stage) : Wire :=
  { wire with flights := wire.flights ++ [⟨caller, callee, wire.now + timeout, stage, wire.now⟩] }

/-- Call a server, whose latency is given. -/
def sendToServer (wire : Wire) (caller : ServerId) (timeout latency : Nat) (call : Call) :
    Wire :=
  (wire.see caller call.target (.sent call.request)).launch caller call.target timeout
    (.outbound (wire.now + latency) call.request)

/-- Call a member that follows a script. -/
def sendToScript (wire : Wire) (caller : ServerId) (timeout : Nat) (call : Call) : Wire :=
  let (item, script) := (wire.script call.target).use call.request
  let stage :=
    match item.outcome? call.target call.request with
    | none => Stage.silent call.request
    | some (delay, outcome) => Stage.inbound (wire.now + delay) outcome
  ((wire.setScript call.target script).see caller call.target (.sent call.request)).launch
    caller call.target timeout stage

/-- Send what became of a call back, after a latency. -/
def sendBack (wire : Wire) (flight : Flight) (latency : Nat) (outcome : Outcome) : Wire :=
  { wire with
    flights :=
      wire.flights ++
        [{ flight with
            stage := .inbound (wire.now + latency) outcome
            since := wire.now }] }

/-- Whether something happens of one call no later than of another. Of what is due at the same
    instant, that comes first which has been under way for longer. -/
def noLater (a b : Flight) : Bool :=
  a.dueAt < b.dueAt || a.dueAt == b.dueAt && a.since ≤ b.since

/-- Of the calls that are `wanted`, the one of which something happens next; with the others. -/
def earliest? (wanted : Flight → Bool) : List Flight → Option (Flight × List Flight)
  | [] => none
  | flight :: rest =>
      match earliest? wanted rest with
      | none => if wanted flight then some (flight, rest) else none
      | some (other, others) =>
          if wanted flight && noLater flight other then some (flight, rest)
          else some (other, flight :: others)

/-- When something happens of a call next. -/
def dueAt? (wire : Wire) : Option Nat := (wire.flights.map Flight.dueAt).min?

/-- Note that a reply has come back. A timeout at the deadline cannot be seen. -/
def seeEnd (wire : Wire) (flight : Flight) : Wire :=
  match flight.stage with
  | .inbound arrival outcome =>
      if arrival ≤ flight.deadline then
        wire.see flight.caller flight.callee (.received outcome)
      else wire
  | _ => wire

/-- Let happen what is due of one call, when the others are those that remain. -/
def land (wire : Wire) (flight : Flight) (others : List Flight) : Arrival × Wire :=
  let wire := { wire with now := max wire.now flight.dueAt, flights := others }
  (flight.arrival, wire.seeEnd flight)

/-- Let time pass up to an instant when nothing happens any more before it. -/
def waitUntil (wire : Wire) (limit : Nat) : Wire := { wire with now := max wire.now limit }

end Wire

end Quorum.Simulation
