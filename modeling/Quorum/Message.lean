import Quorum.Json.Printer
import Quorum.Json.Reader
import Quorum.Log

set_option autoImplicit false

/-! # Messages between servers

Candidates ask for votes, leaders send entries, and both are answered with the term of the one who
answers. Sending no entries is a heartbeat. Each message is a record in JSON; all fields are
needed, and numbers have at most 64 bits. -/

namespace Quorum

/-! ## The messages -/

/-- A candidate asks for the vote of its term. -/
structure VoteRequest where
  term : Nat
  candidate : ServerId
  /-- Where the candidate's log ends. -/
  last : Position
  deriving DecidableEq, Repr

/-- The answer to a candidate. -/
structure VoteReply where
  /-- The term of the one who answers. -/
  term : Nat
  granted : Bool
  deriving DecidableEq, Repr

/-- A leader sends entries. -/
structure AppendRequest where
  term : Nat
  leader : ServerId
  /-- The position before the entries. -/
  prev : Position
  entries : List Entry
  /-- How far the leader knows the log to be committed. -/
  commit : Nat
  deriving DecidableEq, Repr

/-- The answer to a leader. -/
structure AppendReply where
  /-- The term of the one who answers. -/
  term : Nat
  success : Bool
  /-- The last index known to match the leader's log; after a failure, where the log of the one
      who answers ends. -/
  matched : Nat
  deriving DecidableEq, Repr

/-- The index of the last entry that the request covers. If the entries were cut from a log, it is
    an index of that log; in other requests 64 bits may not hold it. -/
def AppendRequest.lastIndex (request : AppendRequest) : Nat :=
  request.prev.index + request.entries.length

/-- What 64 bits hold of the index of the last entry. -/
def AppendRequest.lastWord (request : AppendRequest) : Nat := request.lastIndex % wordLimit

theorem AppendRequest.lastWord_of_lt {request : AppendRequest} (h : request.lastIndex < wordLimit) :
    request.lastWord = request.lastIndex := Nat.mod_eq_of_lt h

/-- The answer to a client's command. -/
inductive SubmitReply where
  /-- The command is in the leader's log; it is not yet committed. -/
  | success (index : Nat) (term : Nat)
  /-- This server does not lead; the leader is named if it is known. -/
  | notLeader (leader : Option ServerId)
  deriving DecidableEq, Repr

/-- Whether a command was taken. -/
def SubmitReply.isSuccess : SubmitReply → Bool
  | .success .. => true
  | .notLeader _ => false

/-! ## As JSON -/

/-- An entry as a record. -/
def Entry.toJson (entry : Entry) : Json :=
  .ofFields
    [("term", .natural entry.term), ("index", .natural entry.index),
      ("command", .ofBytes entry.command)]

/-- An entry from a record. -/
def Entry.ofJson? (json : Json) : Option Entry :=
  match json.fields? ["term", "index", "command"] with
  | some ⟨_, [some term, some index, some command]⟩ => do
      let term ← term.word?
      let index ← index.word?
      let command ← command.bytes?
      some { term, index, command }
  | _ => none

/-- A list of entries as an array. -/
def entriesToJson (entries : List Entry) : Json := .array (entries.map Entry.toJson)

/-- A list of entries from an array. -/
def entriesOfJson? (json : Json) : Option (List Entry) :=
  json.array?.bind (·.mapM Entry.ofJson?)

/-- A candidate's request as a record. -/
def VoteRequest.toJson (request : VoteRequest) : Json :=
  .ofFields
    [("term", .natural request.term), ("candidate_id", .natural request.candidate.number),
      ("last_log_index", .natural request.last.index),
      ("last_log_term", .natural request.last.term)]

/-- A candidate's request from a record. -/
def VoteRequest.ofJson? (json : Json) : Option VoteRequest :=
  match json.fields? ["term", "candidate_id", "last_log_index", "last_log_term"] with
  | some ⟨_, [some term, some candidate, some index, some lastTerm]⟩ => do
      let term ← term.word?
      let candidate ← candidate.serverId?
      let index ← index.word?
      let lastTerm ← lastTerm.word?
      some { term, candidate, last := ⟨lastTerm, index⟩ }
  | _ => none

/-- The answer to a candidate as a record. -/
def VoteReply.toJson (reply : VoteReply) : Json :=
  .ofFields [("term", .natural reply.term), ("vote_granted", .bool reply.granted)]

/-- The answer to a candidate from a record. -/
def VoteReply.ofJson? (json : Json) : Option VoteReply :=
  match json.fields? ["term", "vote_granted"] with
  | some ⟨_, [some term, some granted]⟩ => do
      let term ← term.word?
      let granted ← granted.bool?
      some { term, granted }
  | _ => none

/-- A leader's request as a record. -/
def AppendRequest.toJson (request : AppendRequest) : Json :=
  .ofFields
    [("term", .natural request.term), ("leader_id", .natural request.leader.number),
      ("prev_log_index", .natural request.prev.index),
      ("prev_log_term", .natural request.prev.term),
      ("entries", entriesToJson request.entries), ("leader_commit", .natural request.commit)]

/-- A leader's request from a record. -/
def AppendRequest.ofJson? (json : Json) : Option AppendRequest :=
  let names :=
    ["term", "leader_id", "prev_log_index", "prev_log_term", "entries", "leader_commit"]
  match json.fields? names with
  | some ⟨_, [some term, some leader, some index, some prevTerm, some entries, some commit]⟩ => do
      let term ← term.word?
      let leader ← leader.serverId?
      let index ← index.word?
      let prevTerm ← prevTerm.word?
      let entries ← entriesOfJson? entries
      let commit ← commit.word?
      some { term, leader, prev := ⟨prevTerm, index⟩, entries, commit }
  | _ => none

/-- The answer to a leader as a record. -/
def AppendReply.toJson (reply : AppendReply) : Json :=
  .ofFields
    [("term", .natural reply.term), ("success", .bool reply.success),
      ("match_index", .natural reply.matched)]

/-- The answer to a leader from a record. -/
def AppendReply.ofJson? (json : Json) : Option AppendReply :=
  match json.fields? ["term", "success", "match_index"] with
  | some ⟨_, [some term, some success, some matched]⟩ => do
      let term ← term.word?
      let success ← success.bool?
      let matched ← matched.word?
      some { term, success, matched }
  | _ => none

end Quorum
