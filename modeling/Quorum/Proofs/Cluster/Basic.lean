import Quorum.Proofs.Server.Step

set_option autoImplicit false

/-! # Runs of a cluster

The members of a cluster with everything that is under way between them. One *action* is one thing
that happens: a server is started or goes down, it has a turn or hears from a client, a request gets
to its target, a call comes to its end.

Nothing is supposed about the order of actions. Requests get to their targets late, in any order,
several times or never. A caller hears at most one outcome of each of its calls, which is any reply
that the target has given or any failure, and so a call may fail although the target has answered.
A timer may run out at any time, and each loop takes any of its branches whenever it has a turn.
Which calls to a disk fail is up to the disk.

An action that is not possible at the moment, such as the start of a server that runs, changes
nothing. -/

namespace Quorum

/-! ## What is under way -/

/-- The event that a request is to its target. -/
def Request.event : Request → Event
  | .vote request => .requestVote request
  | .append request => .appendEntries request

/-- A call that was made. -/
structure Exchange where
  caller : ServerId
  call : Call
  /-- What the target has answered, each time that the request got there. -/
  replies : List Answer
  /-- The caller has not heard an outcome yet. -/
  isOpen : Bool

/-- How a call comes to its end. -/
inductive Ending where
  /-- One of the replies gets back. -/
  | reply (place : Nat)
  | failure (error : CallError)

/-- What the caller makes of a reply. -/
def Exchange.replied (x : Exchange) (answer : Answer) : Outcome :=
  match x.call.request with
  | .vote request =>
      .vote request (answer.voteReply.mapError fun e => .rejected x.call.target e.message)
  | .append request =>
      .append request (answer.appendReply.mapError fun e => .rejected x.call.target e.message)

/-- The outcome of a call that is still open, if it can come to this end. -/
def Exchange.outcome? (x : Exchange) (ending : Ending) : Option Outcome :=
  if x.isOpen then
    match ending with
    | .reply place => (x.replies[place]?).map x.replied
    | .failure error => some (x.call.request.failed error)
  else none

/-- The member does not hear of the call any more. -/
def Exchange.abandon (id : ServerId) (x : Exchange) : Exchange :=
  if x.caller = id then { x with isOpen := false } else x

/-! ## Clusters -/

/-- A member of the cluster: a server that runs, or the disk that it has left. -/
inductive Host (σ μ : Type) where
  | up (server : Server σ μ)
  | down (disk : σ)

/-- The disk of a member. -/
def Host.disk {σ μ : Type} : Host σ μ → σ
  | .up server => server.durable.disk
  | .down disk => disk

/-- All members, and all calls that were made. -/
structure Cluster (σ μ : Type) where
  hosts : ServerId → Host σ μ
  exchanges : List Exchange

/-- What each member is started with. -/
structure Setup (σ μ : Type) [LawfulStorage σ] where
  ids : List ServerId
  config : ServerId → Configuration
  /-- The machine of a server that was just started. -/
  machine : ServerId → μ
  /-- The disk before the first start. -/
  disk : ServerId → σ
  self_eq : ∀ id ∈ ids, (config id).self = id
  memberIds_perm : ∀ id ∈ ids, (config id).memberIds.Perm ids
  blank : ∀ id, contents (disk id) = .blank

/-- Something that happens in the cluster. -/
inductive Action where
  /-- A member is started from its disk. -/
  | boot (id : ServerId) (clock : Clock) (channels : List ServerId)
  /-- A member goes down, and only its disk is left. -/
  | crash (id : ServerId)
  /-- Something happens to a member that no other member has a part in. -/
  | occur (id : ServerId) (clock : Clock) (event : Event)
  /-- The request of a call gets to its target, not for the first time perhaps. -/
  | deliver (place : Nat) (clock : Clock)
  /-- A call comes to its end. -/
  | conclude (place : Nat) (clock : Clock) (ending : Ending)

/-- The branch needs nothing from outside. -/
def Branch.isOwn : Branch → Bool
  | .outcome _ => false
  | _ => true

/-- The event needs nothing from other members. -/
def Event.isOwn : Event → Bool
  | .submit _ | .timerFires | .takeTimeout | .shutDown => true
  | .turn branch | .retiredTurn _ branch => branch.isOwn
  | .requestVote _ | .appendEntries _ | .voteResult _ _ | .appendResult _ _ => false

namespace Cluster

variable {σ μ : Type}

/-- The server of a member, if it runs. -/
def server? (c : Cluster σ μ) (id : ServerId) : Option (Server σ μ) :=
  match c.hosts id with
  | .up server => some server
  | .down _ => none

/-- The member runs and leads the term. -/
def leads (c : Cluster σ μ) (id : ServerId) (term : Nat) : Bool :=
  (c.server? id).any (·.role.leads term)

/-- The committed index of a member; there is none as long as it is down. -/
def committed (c : Cluster σ μ) (id : ServerId) : Nat :=
  ((c.server? id).map (·.volatile.committed)).getD 0

/-- The applied index of a member. -/
def applied (c : Cluster σ μ) (id : ServerId) : Nat :=
  ((c.server? id).map (·.volatile.applied)).getD 0

/-- The log that a member has in memory. -/
def memory (c : Cluster σ μ) (id : ServerId) : List Entry :=
  ((c.server? id).map (·.log.entries)).getD []

/-- The log that a member has on its disk. -/
def stored [LawfulStorage σ] (c : Cluster σ μ) (id : ServerId) : List Entry :=
  (contents (c.hosts id).disk).log

/-- The logs of a member, the one in memory and the one on its disk. -/
def logs [LawfulStorage σ] (c : Cluster σ μ) (id : ServerId) : List (List Entry) :=
  [c.memory id, c.stored id]

/-- Put another host in the place of a member. -/
def setHost (c : Cluster σ μ) (id : ServerId) (host : Host σ μ) : Cluster σ μ :=
  { c with hosts := fun other => if other = id then host else c.hosts other }

/-- A member goes down. -/
def crash (c : Cluster σ μ) (id : ServerId) : Cluster σ μ :=
  { c.setHost id (.down (c.hosts id).disk) with
    exchanges := c.exchanges.map (Exchange.abandon id) }

/-- The event that an action is, and the member to which it happens. -/
def event? (c : Cluster σ μ) : Action → Option (ServerId × Clock × Event)
  | .boot _ _ _ | .crash _ => none
  | .occur id clock event => if event.isOwn then some (id, clock, event) else none
  | .deliver place clock =>
      (c.exchanges[place]?).map fun x => (x.call.target, clock, x.call.request.event)
  | .conclude place clock ending =>
      (c.exchanges[place]?).bind fun x =>
        (x.outcome? ending).map fun outcome => (x.caller, clock, outcome.event x.call.target)

/-- A member has made a step. -/
def moved (c : Cluster σ μ) (id : ServerId) (result : StepResult σ μ) : Cluster σ μ :=
  { c.setHost id (.up result.server) with
    exchanges := c.exchanges ++ result.calls.map fun call => ⟨id, call, [], true⟩ }

/-- The outcome of a call is heard once. -/
def close (c : Cluster σ μ) : Action → Cluster σ μ
  | .conclude place _ _ =>
      { c with exchanges := c.exchanges.modify place fun x => { x with isOpen := false } }
  | _ => c

/-- The target of a call has answered. -/
def answered (c : Cluster σ μ) (answer : Answer) : Action → Cluster σ μ
  | .deliver place _ =>
      { c with
        exchanges := c.exchanges.modify place fun x => { x with replies := x.replies ++ [answer] } }
  | _ => c

variable [Storage σ] [StateMachine μ]

/-- Let an event happen to a member that runs. -/
def perform (c : Cluster σ μ) (action : Action) : Cluster σ μ :=
  match c.event? action with
  | none => c
  | some (id, clock, event) =>
      match c.server? id with
      | none => c
      | some server =>
          let result := server.step clock event
          ((c.close action).moved id result).answered result.answer action

/-- No loop that was told to end sends anything at the action. -/
def retiredAreSilent (c : Cluster σ μ) (action : Action) : Bool :=
  match c.event? action with
  | none => true
  | some (id, clock, event) => (c.server? id).all (·.retiredAreSilent clock event)

end Cluster

/-! ## Runs -/

namespace Setup

variable {σ μ : Type} [LawfulStorage σ]

/-- All members are down, and their disks are blank. -/
def initial (setup : Setup σ μ) : Cluster σ μ := ⟨fun id => .down (setup.disk id), []⟩

/-- Start a member that is down. -/
def boot (setup : Setup σ μ) (c : Cluster σ μ) (id : ServerId) (clock : Clock)
    (channels : List ServerId) : Cluster σ μ :=
  match c.hosts id with
  | .up _ => c
  | .down disk =>
      if id ∈ setup.ids then
        match Server.start clock (setup.config id) channels disk (setup.machine id) with
        | .ok server => c.setHost id (.up server)
        | .error _ => c
      else c

variable [StateMachine μ]

/-- One action. -/
def act (setup : Setup σ μ) (c : Cluster σ μ) (action : Action) : Cluster σ μ :=
  match action with
  | .boot id clock channels => setup.boot c id clock channels
  | .crash id => c.crash id
  | action => c.perform action

/-- The cluster after some actions. -/
def run (setup : Setup σ μ) (actions : List Action) : Cluster σ μ :=
  actions.foldl setup.act setup.initial

/-- The cluster in the course of a run, after the first `time` actions. -/
def moment (setup : Setup σ μ) (actions : List Action) (time : Nat) : Cluster σ μ :=
  setup.run (actions.take time)

/-- No loop that was told to end ever sends anything in the course of the run. -/
def RetiredAreSilent (setup : Setup σ μ) (actions : List Action) : Prop :=
  ∀ time action, actions[time]? = some action →
    (setup.moment actions time).retiredAreSilent action

instance (setup : Setup σ μ) (actions : List Action) :
    Decidable (setup.RetiredAreSilent actions) :=
  decidable_of_iff
    (∀ time, time < actions.length →
      (actions[time]?).all (setup.moment actions time).retiredAreSilent) (by
    unfold RetiredAreSilent
    refine forall_congr' fun time => ⟨fun h action haction => ?_, fun h hlt => ?_⟩
    · have hall := h (List.getElem?_eq_some_iff.1 haction).1
      rw [haction] at hall
      exact hall
    · rw [List.getElem?_eq_getElem hlt]
      exact h _ (List.getElem?_eq_getElem hlt))

end Setup

/-! ## Small clusters -/

/-- A machine that writes down what it is handed. -/
structure Journal where
  commands : List (Nat × Bytes)
  deriving DecidableEq, Repr

instance : StateMachine Journal where
  apply journal index command := .ok [] ⟨journal.commands ++ [(index, command)]⟩

/-- Members with the identities from 1 to `count`, and which of their calls to the disk fail. -/
def Setup.small (count : Nat) (fails : ServerId → List Bool) : Setup (Fated Contents) Journal where
  ids := (List.range count).map fun n => ⟨n + 1⟩
  config id := .standard id ((List.range count).map fun n => ⟨⟨n + 1⟩, .v4 ⟨127, 0, 0, 1⟩ 0⟩)
  machine _ := ⟨[]⟩
  disk id := ⟨.blank, fails id⟩
  self_eq _ _ := rfl
  memberIds_perm _ _ := by
    simp only [Configuration.memberIds, Configuration.standard, List.map_map]
    exact List.Perm.refl _
  blank _ := rfl

/-- Members 1, 2 and 3 are started, and member 2 gives member 1 its vote in term 1. -/
def firstElection : List Action :=
  let clock : Clock := ⟨0, 1⟩
  [.boot ⟨1⟩ clock [⟨2⟩, ⟨3⟩], .boot ⟨2⟩ clock [⟨1⟩, ⟨3⟩], .boot ⟨3⟩ clock [⟨1⟩, ⟨2⟩],
    .occur ⟨1⟩ clock .timerFires, .occur ⟨1⟩ clock .takeTimeout, .occur ⟨1⟩ clock (.turn .stop),
    .deliver 0 clock, .conclude 0 clock (.reply 0), .occur ⟨1⟩ clock (.turn .stop)]

/-- After that, member 1 takes a command from a client, and commits it once member 2 has it too. -/
def firstCommand : List Action :=
  let clock : Clock := ⟨0, 1⟩
  firstElection ++
    [.occur ⟨1⟩ clock (.turn .stop), .occur ⟨1⟩ clock (.submit [7]),
      .occur ⟨1⟩ clock (.turn .wake), .deliver 2 clock, .conclude 2 clock (.reply 0)]

end Quorum
