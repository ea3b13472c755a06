import Quorum.Address.Reader
import Quorum.Error
import Quorum.Json.Printer
import Quorum.Json.Reader

set_option autoImplicit false

/-! # The configuration of a server

Which members the cluster has, which of them the server is, and its three timings: the interval
that election timeouts are drawn from, the time between a leader's heartbeats, and how long a call
to a peer may take. Membership is fixed. A configuration is read from JSON, in which the timings
may be left out, and is checked before it is used. -/

namespace Quorum

/-- A member of the cluster and where it listens. -/
structure Member where
  id : ServerId
  address : SocketAddress
  deriving DecidableEq, Repr

/-- The shortest and the longest election timeout. -/
structure Interval where
  minimum : Nat
  maximum : Nat
  deriving DecidableEq, Repr

/-- What a server has to know about its cluster. -/
structure Configuration where
  self : ServerId
  members : List Member
  electionTimeout : Interval
  heartbeat : Nat
  rpcTimeout : Nat
  deriving DecidableEq, Repr

/-! ## Defaults -/

/-- The interval of election timeouts where none is given. -/
def Interval.standard : Interval := ⟨150, 300⟩

/-- The time between heartbeats where none is given. -/
def standardHeartbeat : Nat := 50

/-- The time for a call where none is given. -/
def standardRpcTimeout : Nat := 100

/-- The configuration of member `self` with the default timings. -/
def Configuration.standard (self : ServerId) (members : List Member) : Configuration :=
  { self, members, electionTimeout := .standard, heartbeat := standardHeartbeat,
    rpcTimeout := standardRpcTimeout }

/-! ## Members and peers -/

/-- The identities of all members. -/
def Configuration.memberIds (config : Configuration) : List ServerId :=
  config.members.map Member.id

/-- The identities of the other members, in the order of the configuration. -/
def Configuration.peerIds (config : Configuration) : List ServerId :=
  config.memberIds.filter (· ≠ config.self)

/-- The number of members, the server itself among them. -/
def Configuration.clusterSize (config : Configuration) : Nat := config.members.length

/-- Give each of `peers` its channel out of `channels`; every peer needs one of its own, and none
    may be left over. -/
def matchChannels : List ServerId → List ServerId → Except EngineError Unit
  | [], [] => .ok ()
  | [], stray :: _ => .error (.invalidConfiguration (.strayChannel stray))
  | peer :: peers, channels =>
      if peer ∈ channels then matchChannels peers (channels.filter (· ≠ peer))
      else .error (.invalidConfiguration (.missingChannel peer))

/-- The peers of a server in ascending order, if the channels that it was given lead exactly to
    them. -/
def Configuration.connect (config : Configuration) (channels : List ServerId) :
    Except EngineError (List ServerId) :=
  match matchChannels config.peerIds channels with
  | .ok () => .ok (ServerId.ascending config.peerIds)
  | .error e => .error e

/-! ## Checks -/

/-- The first identity that already stands before itself. -/
def firstRepeated? (seen : List ServerId) : List ServerId → Option ServerId
  | [] => none
  | id :: rest => if id ∈ seen then some id else firstRepeated? (id :: seen) rest

/-- What is wrong with the configuration, if anything is. -/
def Configuration.fault? (config : Configuration) : Option ConfigurationFault :=
  let interval := config.electionTimeout
  if interval.minimum = 0 then some .zeroMinimum
  else if interval.maximum < interval.minimum then
    some (.maximumBelowMinimum interval.maximum interval.minimum)
  else if config.heartbeat = 0 then some .zeroHeartbeat
  else if interval.minimum ≤ config.heartbeat then
    some (.heartbeatTooLong config.heartbeat interval.minimum)
  else if config.rpcTimeout = 0 then some .zeroRpcTimeout
  else
    match firstRepeated? [] config.memberIds with
    | some id => some (.duplicateMember id)
    | none => if config.self ∈ config.memberIds then none else some (.notAMember config.self)

/-- Refuse a configuration that no server can run with. -/
def Configuration.validate (config : Configuration) : Except EngineError Unit :=
  match config.fault? with
  | some fault => .error (.invalidConfiguration fault)
  | none => .ok ()

/-! ## As JSON -/

/-- A member as a record. -/
def Member.toJson (member : Member) : Json :=
  .ofFields
    [("id", .natural member.id.number), ("address", .ofString member.address.toText)]

/-- A member from a record. -/
def Member.ofJson? (json : Json) : Option Member :=
  match json.fields? ["id", "address"] with
  | some ⟨_, [some id, some address]⟩ => do
      let id ← id.serverId?
      let address ← address.string?
      let address ← SocketAddress.ofText? address
      some { id, address }
  | _ => none

/-- An interval as a record. -/
def Interval.toJson (interval : Interval) : Json :=
  .ofFields
    [("minimum_ms", .natural interval.minimum), ("maximum_ms", .natural interval.maximum)]

/-- An interval from a record. -/
def Interval.ofJson? (json : Json) : Option Interval :=
  match json.fields? ["minimum_ms", "maximum_ms"] with
  | some ⟨_, [some minimum, some maximum]⟩ => do
      let minimum ← minimum.word?
      let maximum ← maximum.word?
      some { minimum, maximum }
  | _ => none

/-- A configuration as a record. -/
def Configuration.toJson (config : Configuration) : Json :=
  .ofFields
    [("this_server_id", .natural config.self.number),
      ("cluster_servers", .array (config.members.map Member.toJson)),
      ("timer_interval", config.electionTimeout.toJson),
      ("heartbeat_interval_ms", .natural config.heartbeat),
      ("rpc_timeout_ms", .natural config.rpcTimeout)]

/-- The value of a field that can be left out. -/
def readOr {α : Type} (standard : α) (read : Json → Option α) : Option Json → Option α
  | some json => read json
  | none => some standard

/-- A configuration from a record, in which the timings can be left out. -/
def Configuration.ofJson? (json : Json) : Option Configuration :=
  let names :=
    ["this_server_id", "cluster_servers", "timer_interval", "heartbeat_interval_ms",
      "rpc_timeout_ms"]
  match json.fields? names with
  | some ⟨_, [some self, some members, electionTimeout, heartbeat, rpcTimeout]⟩ => do
      let self ← self.serverId?
      let members ← members.array?
      let members ← members.mapM Member.ofJson?
      let electionTimeout ← readOr .standard Interval.ofJson? electionTimeout
      let heartbeat ← readOr standardHeartbeat Json.word? heartbeat
      let rpcTimeout ← readOr standardRpcTimeout Json.word? rpcTimeout
      some { self, members, electionTimeout, heartbeat, rpcTimeout }
  | _ => none

/-- Read and check a configuration. -/
def Configuration.ofText (text : String) : Except EngineError Configuration :=
  match (Json.ofText? text.toList).bind Configuration.ofJson? with
  | none => .error .serialization
  | some config =>
      match config.validate with
      | .ok () => .ok config
      | .error e => .error e

/-- The text of a configuration. -/
def Configuration.toText (config : Configuration) : String := config.toJson.toCompact

end Quorum
