import Quorum.KeyValue.Store
import Quorum.Rpc.Network
import Quorum.Server.Step
import Quorum.Simulation.Wire
import Quorum.Storage.Faulty
import Quorum.Storage.Medium

set_option autoImplicit false

/-! # A simulated cluster

Servers with key-value stores on one network and one clock; the other members of their cluster
follow scripts. Computing takes no time. At each instant everything that is due happens, with all
that it brings about at once, before time goes on to the next instant at which anything is due.

A request to a server takes some time to get there, is then handed over by the network, and its
reply takes some time to get back. Cuts of the network concern only the instant in between. The
disk of a server outlives it, its store does not. -/

namespace Quorum.Simulation

/-- A server of the simulation. -/
abbrev SimServer := Server (Faulty Medium) KeyValue.Store

/-- A server that runs, or the disk that it has left. -/
inductive Machine where
  | running (server : SimServer)
  | down (disk : Faulty Medium)

/-- A member that is a server. -/
structure Node where
  id : ServerId
  config : Configuration
  machine : Machine

/-- The disk of a member. -/
def Node.disk (node : Node) : Faulty Medium :=
  match node.machine with
  | .running server => server.durable.disk
  | .down disk => disk

/-- The server of a member, if it runs. -/
def Node.server? (node : Node) : Option SimServer :=
  match node.machine with
  | .running server => some server
  | .down _ => none

/-- Change the disk of a member behind the back of its server. -/
def Node.changeDisk (node : Node) (change : Faulty Medium → Faulty Medium) : Node :=
  match node.machine with
  | .running server =>
      { node with
        machine := .running
          { server with
            durable := { server.durable with disk := change server.durable.disk } } }
  | .down disk => { node with machine := .down (change disk) }

/-- The whole simulation. -/
structure World where
  wire : Wire
  network : Network Unit
  nodes : List Node
  /-- How long a message takes from one member to another. -/
  latency : ServerId → ServerId → Nat

namespace World

/-! ## Members -/

/-- The present instant. -/
abbrev now (world : World) : Nat := world.wire.now

/-- A member that is a server. -/
def node? (world : World) (id : ServerId) : Option Node := world.nodes.find? (·.id = id)

/-- The server of a member, if it runs. -/
def server? (world : World) (id : ServerId) : Option SimServer :=
  (world.node? id).bind Node.server?

/-- Change a member. -/
def changeNode (world : World) (id : ServerId) (change : Node → Node) : World :=
  { world with nodes := world.nodes.map fun node => if node.id = id then change node else node }

/-- Put a server in the place of a member. -/
def setServer (world : World) (id : ServerId) (server : SimServer) : World :=
  world.changeNode id fun node => { node with machine := .running server }

/-- The clock for a step of a member: its election timeout is always the shortest one. -/
def clock (world : World) (config : Configuration) : Clock :=
  ⟨world.now, config.electionTimeout.minimum⟩

/-- Send a call of a member, to a server or to a member that follows a script. -/
def send (world : World) (caller : ServerId) (timeout : Nat) (call : Call) : World :=
  let wire :=
    if (world.node? call.target).isSome then
      world.wire.sendToServer caller timeout (world.latency caller call.target) call
    else world.wire.sendToScript caller timeout call
  { world with wire }

/-- Let something happen to the server of a member, if it runs, and send what it sends. -/
def perform (world : World) (id : ServerId) (event : Event) : Answer × World :=
  match world.server? id with
  | none => (.none, world)
  | some server =>
      let result := server.step (world.clock server.config) event
      let world := world.setServer id result.server
      (result.answer,
        result.calls.foldl
          (fun world call => world.send id server.config.rpcTimeout call) world)

/-! ## Calls -/

/-- Hand a request over by the network to the server that is called. -/
def deliver (world : World) (caller callee : ServerId) (request : Request) : Outcome × World :=
  match request with
  | .vote request =>
      let delivery := world.network.call caller callee fun _ network =>
        let (answer, world) := world.perform callee (.requestVote request)
        ⟨answer.voteReply, world, network⟩
      (.vote request delivery.result, delivery.effect.getD world)
  | .append request =>
      let delivery := world.network.call caller callee fun _ network =>
        let (answer, world) := world.perform callee (.appendEntries request)
        ⟨answer.appendReply, world, network⟩
      (.append request delivery.result, delivery.effect.getD world)

/-- Something happens of a call. -/
def arrive (world : World) : Arrival → World
  | .delivered flight request =>
      let (outcome, world) := world.deliver flight.caller flight.callee request
      let latency := world.latency flight.callee flight.caller
      { world with wire := world.wire.sendBack flight latency outcome }
  | .ended flight outcome => (world.perform flight.caller (outcome.event flight.callee)).2

/-! ## Time -/

/-- All that servers may do by themselves at the present instant. -/
def pending (world : World) : List (ServerId × Event) :=
  world.nodes.flatMap fun node =>
    ((node.server?.map (·.pending world.now)).getD []).map fun event => (node.id, event)

/-- The alarms of all servers. -/
def alarms (world : World) : List (ServerId × Alarm) :=
  world.nodes.flatMap fun node =>
    ((node.server?.map Server.alarms).getD []).map fun alarm => (node.id, alarm)

/-- The alarm that is due and was set first; of several, the first in the list. -/
def dueAlarm? (now : Nat) : List (ServerId × Alarm) → Option (ServerId × Alarm)
  | [] => none
  | (id, alarm) :: rest =>
      match dueAlarm? now rest with
      | none => if alarm.due ≤ now then some (id, alarm) else none
      | some (other, later) =>
          if alarm.due ≤ now && alarm.since ≤ later.since then some (id, alarm)
          else some (other, later)

/-- Let happen what is due of a call, when the others are those that remain. -/
def land (world : World) (flight : Flight) (others : List Flight) : World :=
  let (arrival, wire) := world.wire.land flight others
  { world with wire }.arrive arrival

/-- The call that comes to its end at the present instant, and the alarm that goes off: of both,
    what has been under way for longer. -/
def endOrAlarm? (world : World) : Option World :=
  let isEnd (flight : Flight) : Bool := flight.dueAt ≤ world.now && !flight.isDelivery
  match Wire.earliest? isEnd world.wire.flights, dueAlarm? world.now world.alarms with
  | none, none => none
  | some (flight, others), none => some (world.land flight others)
  | none, some (id, alarm) => some (world.perform id alarm.event).2
  | some (flight, others), some (id, alarm) =>
      if flight.since < alarm.since then some (world.land flight others)
      else some (world.perform id alarm.event).2

/-- Hand over the requests that arrive at the present instant, if there are any: all of them, before
    anybody goes on because of one. -/
def deliveries? (world : World) : Option World :=
  let (due, others) :=
    world.wire.flights.partition fun flight => flight.dueAt ≤ world.now && flight.isDelivery
  if due.isEmpty then none
  else
    some
      ((due.mergeSort Wire.noLater).foldl
        (fun world flight => world.land flight world.wire.flights)
        { world with wire := { world.wire with flights := others } })

/-- The next instant at which something is due. -/
def dueAt? (world : World) : Option Nat :=
  (world.wire.dueAt?.toList ++ world.alarms.map (·.2.due)).min?

/-- The next thing that happens, if anything does up to the instant `limit`. At each instant calls
    come to their end and alarms go off before servers do what they may do by themselves, of which
    the first is taken. A request is handled a moment after it has arrived, when nothing of this is
    left. If there is no request either, time goes on. -/
def next? (world : World) (limit : Nat) : Option World :=
  match world.endOrAlarm? with
  | some world => some world
  | none =>
      match world.pending with
      | (id, event) :: _ => some (world.perform id event).2
      | [] =>
          match world.deliveries? with
          | some world => some world
          | none =>
              match world.dueAt? with
              | some time =>
                  if time ≤ limit then some { world with wire := world.wire.waitUntil time }
                  else none
              | none => none

/-- Let everything happen up to the instant `limit`, but at most `budget` things. -/
def runUntil (limit : Nat) : Nat → World → World
  | 0, world => world
  | budget + 1, world =>
      match world.next? limit with
      | some world => runUntil limit budget world
      | none => { world with wire := world.wire.waitUntil limit }

/-- The most things that can happen in one stretch of time. It is there for clusters that never
    come to rest within an instant. -/
def budget : Nat := 10000000

/-- Let some time pass. -/
def advance (world : World) (duration : Nat) : World :=
  runUntil (world.now + duration) budget world

/-! ## From outside -/

/-- Start the server of a member from its disk. It is reachable from then on. -/
def start (world : World) (id : ServerId) : Except EngineError Unit × World :=
  match world.node? id with
  | none => (.ok (), world)
  | some node =>
      let config := node.config
      match Server.start (world.clock config) config config.peerIds node.disk .empty with
      | .error e => (.error e, world)
      | .ok server =>
          (.ok (),
            { world.setServer id server with network := world.network.register id () })

/-- Drop the server of a member. What it has sent is still on its way. -/
def stop (world : World) (id : ServerId) : World :=
  { world.changeNode id fun node => { node with machine := .down node.disk } with
    network := world.network.unregister id }

/-- Change the links of the network. -/
def relink (world : World) (change : Links → Links) : World :=
  { world with network := world.network.relink change }

/-- What was seen since the last report. -/
def report (world : World) : List Sighting × World :=
  let (seen, wire) := world.wire.report
  (seen, { world with wire })

end World

end Quorum.Simulation
