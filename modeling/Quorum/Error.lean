import Quorum.Basic

set_option autoImplicit false

/-! # Errors and their wording

Four layers can fail, and each has its own type of errors: the disk (`DiskError`), the engine
(`EngineError`), the state machine that commands are applied to (`ApplyError`) and a call to a
peer (`CallError`). An error is a cause with the numbers that describe it; how it is worded is
said once, in the `message` of its type. An error that comes from outside the engine carries the
words it was given (the constructors named `other`). -/

namespace Quorum

/-! ## The disk -/

/-- Why the disk did not do what it was asked to. -/
inductive DiskError where
  /-- The contents are not what they should be. -/
  | invalidData
  /-- There is nothing under that name. -/
  | notFound
  /-- A file was wanted and a directory found. -/
  | isADirectory
  /-- A directory was wanted and a file found. -/
  | notADirectory
  /-- The name is taken. -/
  | alreadyExists
  /-- Any other failure, in the disk's own words. -/
  | other (text : String)
  deriving DecidableEq, Repr

/-- The words for a failure of the disk. -/
def DiskError.message : DiskError → String
  | .invalidData => "invalid data"
  | .notFound => "not found"
  | .isADirectory => "is a directory"
  | .notADirectory => "not a directory"
  | .alreadyExists => "already exists"
  | .other text => text

/-! ## The engine -/

/-- An argument that the engine cannot accept. -/
inductive ArgumentFault where
  /-- The log on the disk has an entry that does not carry the index of its position. -/
  | misplacedEntry (found position : Nat)
  /-- The term would go back. -/
  | termBelowCurrent (term current : Nat)
  /-- The commit index would go back. -/
  | commitBelowCommitted (index committed : Nat)
  /-- The commit index would fall behind what is applied. -/
  | commitBelowApplied (index applied : Nat)
  /-- The applied index would go back. -/
  | appliedBelowApplied (index applied : Nat)
  /-- The applied index would pass what is committed. -/
  | appliedAboveCommitted (index committed : Nat)
  /-- Any other argument, in the words given. -/
  | other (text : String)
  deriving DecidableEq, Repr

/-- What is wrong with the argument. -/
def ArgumentFault.detail : ArgumentFault → String
  | .misplacedEntry found position =>
      s!"persisted log has entry index {found} at position {position}"
  | .termBelowCurrent term current =>
      s!"attempting to set term [{term}] lower than current term [{current}]"
  | .commitBelowCommitted index committed =>
      s!"attempting to set committed entry index [{index}] lower than current value [{committed}]"
  | .commitBelowApplied index applied =>
      s!"attempting to set committed entry index [{index}] lower than applied entry index [{applied}]"
  | .appliedBelowApplied index applied =>
      s!"attempting to set applied entry index [{index}] lower than current value [{applied}]"
  | .appliedAboveCommitted index committed =>
      s!"attempting to set applied entry index [{index}] higher than committed entry index [{committed}]"
  | .other text => text

/-- A state in which the operation makes no sense. -/
inductive StateFault where
  /-- The vote of this term is already given away. -/
  | alreadyVoted (term : Nat)
  /-- A peer should be sent entries from beyond the end of the log. -/
  | nextPastEnd (next : Nat) (peer : ServerId)
  /-- 64 bits cannot hold a sum. Nobody is told, as the task that wants it dies. -/
  | overflow
  /-- Any other state, in the words given. -/
  | other (text : String)
  deriving DecidableEq, Repr

/-- What is wrong with the state. -/
def StateFault.detail : StateFault → String
  | .alreadyVoted term => s!"already voted for a candidate in term {term}"
  | .nextPastEnd next peer => s!"next index {next} for {peer.label} is past the end of the log"
  | .overflow => "attempt to add with overflow"
  | .other text => text

/-- A request that the present mode of the server does not take. -/
inductive ModeFault where
  /-- A leader was asked for its vote in its own term or an older one. -/
  | leaderAskedToVote (term : Nat) (candidate : ServerId) (requested : Nat)
  /-- A leader was sent entries for its own term or an older one. -/
  | leaderSentEntries (term : Nat) (leader : ServerId) (requested : Nat)
  /-- Any other request, in the words given. -/
  | other (text : String)
  deriving DecidableEq, Repr

/-- What is wrong with the request. -/
def ModeFault.detail : ModeFault → String
  | .leaderAskedToVote term candidate requested =>
      s!"leader of term {term} does not vote (request from {candidate.label} for term {requested})"
  | .leaderSentEntries term leader requested =>
      s!"leader of term {term} received append entries from {leader.label} for term {requested}"
  | .other text => text

/-- A configuration that no server can run with. -/
inductive ConfigurationFault where
  /-- The shortest election timeout is zero. -/
  | zeroMinimum
  /-- The longest election timeout is shorter than the shortest. -/
  | maximumBelowMinimum (maximum minimum : Nat)
  /-- The heartbeat interval is zero. -/
  | zeroHeartbeat
  /-- Heartbeats do not come sooner than the shortest election timeout. -/
  | heartbeatTooLong (heartbeat minimum : Nat)
  /-- Calls have no time to be answered. -/
  | zeroRpcTimeout
  /-- Two members have the same identity. -/
  | duplicateMember (id : ServerId)
  /-- The server itself is not among the members. -/
  | notAMember (id : ServerId)
  /-- A peer cannot be reached at all. -/
  | missingChannel (peer : ServerId)
  /-- There is a channel to somebody who is no peer. -/
  | strayChannel (id : ServerId)
  /-- Any other fault, in the words given. -/
  | other (text : String)
  deriving DecidableEq, Repr

/-- What is wrong with the configuration. -/
def ConfigurationFault.detail : ConfigurationFault → String
  | .zeroMinimum => "timer_interval.minimum_ms should be positive (found 0)"
  | .maximumBelowMinimum maximum minimum =>
      s!"timer_interval.maximum_ms [{maximum}] is lower than minimum_ms [{minimum}]"
  | .zeroHeartbeat => "heartbeat_interval_ms should be positive (found 0)"
  | .heartbeatTooLong heartbeat minimum =>
      s!"heartbeat_interval_ms [{heartbeat}] must be shorter than the minimum election timeout [{minimum}]"
  | .zeroRpcTimeout => "rpc_timeout_ms should be positive (found 0)"
  | .duplicateMember id => s!"duplicate server id {id.label}"
  | .notAMember id => s!"this_server_id {id.label} is not a cluster member"
  | .missingChannel peer => s!"no rpc channel for peer {peer.label}"
  | .strayChannel id => s!"rpc channel given for {id.label} which is not a peer"
  | .other text => text

/-- Why an operation of the engine failed. -/
inductive EngineError where
  /-- There is no log entry with that index. -/
  | outOfRange (index length : Nat)
  /-- The state does not allow the operation. -/
  | illegalState (fault : StateFault)
  /-- The argument is not acceptable. -/
  | invalidArgument (fault : ArgumentFault)
  /-- The server is in a mode that does not take the request. -/
  | preconditionFailed (fault : ModeFault)
  /-- Only the leader can do this. -/
  | notLeader (leader : Option ServerId)
  /-- The server cannot be set up like this. -/
  | invalidConfiguration (fault : ConfigurationFault)
  /-- The disk failed. -/
  | storage (error : DiskError)
  /-- A text could not be read as the value it should hold. -/
  | serialization
  deriving DecidableEq, Repr

/-- The words for a failure of the engine. -/
def EngineError.message : EngineError → String
  | .outOfRange index length => s!"log index {index} is out of range (log length {length})"
  | .illegalState fault => s!"illegal state: {fault.detail}"
  | .invalidArgument fault => s!"invalid argument: {fault.detail}"
  | .preconditionFailed fault => s!"precondition failed: {fault.detail}"
  | .notLeader none => "not the leader, current leader is None"
  | .notLeader (some id) => s!"not the leader, current leader is Some(ServerId({id.number}))"
  | .invalidConfiguration fault => s!"invalid configuration: {fault.detail}"
  | .storage error => s!"storage error: {error.message}"
  | .serialization => "serialization error"

/-! ## The state machine -/

/-- Why the state machine rejected a command. -/
inductive ApplyError where
  /-- The bytes are no command. -/
  | invalidCommand (text : String)
  /-- The command was understood and could not be carried out. -/
  | failed (text : String)
  deriving DecidableEq, Repr

/-- The words for a rejected command. -/
def ApplyError.message : ApplyError → String
  | .invalidCommand text => s!"invalid command: {text}"
  | .failed text => s!"apply failed: {text}"

/-! ## Calls to peers -/

/-- Why a call to a peer brought no usable reply. -/
inductive CallError where
  /-- The peer could not be reached, or its reply could not come back. -/
  | unreachable (peer : ServerId)
  /-- No reply came in time. -/
  | timeout (peer : ServerId)
  /-- The peer answered with an error. -/
  | rejected (peer : ServerId) (reason : String)
  deriving DecidableEq, Repr

/-- The words for a call without a usable reply. -/
def CallError.message : CallError → String
  | .unreachable peer => s!"{peer.label} is unreachable"
  | .timeout peer => s!"rpc to {peer.label} timed out"
  | .rejected peer reason => s!"rpc rejected by {peer.label}: {reason}"

end Quorum
