import Quorum.Message
import Quorum.Storage.Basic
import Quorum.Storage.Directory

set_option autoImplicit false

/-! # A disk in files

A disk that keeps the ballot in `meta.json` and the log in `log.json` of a directory, both as
indented JSON. A file that is missing stands for a blank ballot or an empty log. Each write makes
the whole file anew under a temporary name and renames it, so that a stop half way leaves either
the old contents or the new. -/

namespace Quorum

/-- A disk in the files of a directory. -/
structure FileStore where
  directory : Directory

namespace FileStore

/-- Holds the ballot. -/
def ballotFile : String := "meta.json"

/-- Holds the ballot until it is complete. -/
def ballotTemporary : String := "meta.tmp"

/-- Holds the log. -/
def logFile : String := "log.json"

/-- Holds the log until it is complete. -/
def logTemporary : String := "log.tmp"

end FileStore

/-! ## The files' contents -/

/-- A ballot as a record. -/
def Ballot.toJson (ballot : Ballot) : Json :=
  .ofFields
    [("term", .natural ballot.term),
      ("voted_for", (ballot.vote.map fun id => Json.natural id.number).getD .null)]

/-- The vote in a record: none if it is null, and also if a record with names leaves it out. -/
def voteOfJson? (positional : Bool) : Option Json → Option (Option ServerId)
  | none => if positional then none else some none
  | some .null => some none
  | some json => json.serverId?.map some

/-- A ballot from a record. -/
def Ballot.ofJson? (json : Json) : Option Ballot :=
  match json.fields? ["term", "voted_for"] with
  | some ⟨positional, [some term, vote]⟩ => do
      let term ← term.word?
      let vote ← voteOfJson? positional vote
      some { term, vote }
  | _ => none

namespace FileStore

/-- Write a file by way of a temporary one. -/
def write (store : FileStore) (target temporary : String) (json : Json) :
    Attempt DiskError Unit FileStore :=
  (performAll store.directory (replaceFile target temporary (utf8 json.toIndented))).within mk

/-- Read the value that a file holds; `missing` if there is no such file. -/
def read {α : Type} (store : FileStore) (name : String) (missing : α) (ofJson? : Json → Option α) :
    Except DiskError α :=
  match store.directory.get? name with
  | none => .ok missing
  | some node =>
      match Node.readText (some node) with
      | .error e => .error e
      | .ok text =>
          match (Json.ofText? text.toList).bind ofJson? with
          | some value => .ok value
          | none => .error .invalidData

/-! ## The disk -/

/-- Replace the ballot. -/
def saveBallot (store : FileStore) (ballot : Ballot) : Attempt DiskError Unit FileStore :=
  store.write ballotFile ballotTemporary ballot.toJson

/-- The ballot that was saved last. -/
def loadBallot (store : FileStore) : Except DiskError Ballot :=
  store.read ballotFile .blank Ballot.ofJson?

/-- Replace the log. -/
def saveLog (store : FileStore) (entries : List Entry) : Attempt DiskError Unit FileStore :=
  store.write logFile logTemporary (entriesToJson entries)

/-- All entries. -/
def loadLog (store : FileStore) : Except DiskError (List Entry) :=
  store.read logFile [] entriesOfJson?

/-- Put entries behind those already there; without any, no file is looked at. -/
def appendEntries (store : FileStore) (entries : List Entry) : Attempt DiskError Unit FileStore :=
  if entries.isEmpty then .ok () store
  else
    match store.loadLog with
    | .error e => .error e store
    | .ok log => store.saveLog (log ++ entries)

/-- Remove the entries whose index is `start` or more. The file is written only if something is
    removed, or if there is no file yet. -/
def truncateFrom (store : FileStore) (start : Nat) : Attempt DiskError Unit FileStore :=
  match store.loadLog with
  | .error e => .error e store
  | .ok log =>
      let kept := log.filter (·.index < start)
      if kept.length = log.length && store.directory.contains logFile then .ok () store
      else store.saveLog kept

/-- Forget everything, the ballot first. -/
def clear (store : FileStore) : Attempt DiskError Unit FileStore :=
  ((store.directory.removeFile ballotFile).andThen fun _ directory =>
    directory.removeFile logFile).within mk

instance : Storage FileStore where
  saveBallot := saveBallot
  loadBallot := loadBallot
  appendEntries := appendEntries
  loadLog := loadLog
  truncateFrom := truncateFrom

end FileStore

end Quorum
