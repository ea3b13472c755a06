import Quorum.Proofs.Storage.Backends

set_option autoImplicit false

/-! # Leftover temporary files

Whoever replaces a file makes the temporary file anew, and nobody else looks at it. So it does not
matter what a stop half way has left in it: two disks that differ in nothing else give the same
answers to all calls, and go on to differ in nothing else. -/

namespace Quorum

open FileStore

/-! ## Directories that differ in temporary files -/

/-- The directories are the same but for the bytes of temporary files, which may be missing. -/
structure Directory.Resembles (directory other : Directory) : Prop where
  named : ∀ name, name ≠ ballotTemporary → name ≠ logTemporary →
    directory.get? name = other.get? name
  /-- What stands in the way of a file is in both. -/
  blocked : ∀ name, directory.get? name = some .directory ↔ other.get? name = some .directory

namespace Directory.Resembles

variable {directory other : Directory}

/-- Files are replaced alike, and it makes no difference what was left of the last time. -/
theorem replaceFile (h : directory.Resembles other) {target temporary : String}
    (hne : target ≠ temporary) (bytes : Bytes) :
    (performAll directory (Quorum.replaceFile target temporary bytes)).Alike Directory.Resembles
      (performAll other (Quorum.replaceFile target temporary bytes)) := by
  have hreplaces := replaces_replaceFile directory bytes hne
  have hreplaces' := replaces_replaceFile other bytes hne
  generalize performAll directory _ = replaced, performAll other _ = replaced'
    at hreplaces hreplaces' ⊢
  cases hreplaces with
  | blocked hblocked =>
    cases hreplaces' with
    | blocked => exact ⟨rfl, h⟩
    | leaves hfree | done hfree => exact absurd ((h.blocked _).1 hblocked) hfree
  | leaves hfree hblocked after hafter =>
    cases hreplaces' with
    | blocked hblocked' => exact absurd ((h.blocked _).2 hblocked') hfree
    | leaves _ _ after' hafter' =>
      refine ⟨rfl, fun name hballot hlog => ?_, fun name => ?_⟩ <;>
        simp only [Attempt.error, hafter, hafter'] <;> split_ifs
      · rfl
      · exact h.named name hballot hlog
      · exact Iff.rfl
      · exact h.blocked name
    | done _ hfree' => exact absurd ((h.blocked _).1 hblocked) hfree'
  | done hfree hfree' after hafter =>
    cases hreplaces' with
    | blocked hblocked => exact absurd ((h.blocked _).2 hblocked) hfree
    | leaves _ hblocked => exact absurd ((h.blocked _).2 hblocked) hfree'
    | done _ _ after' hafter' =>
      refine ⟨rfl, fun name hballot hlog => ?_, fun name => ?_⟩ <;>
        simp only [Attempt.ok, hafter, hafter'] <;> split_ifs
      · rfl
      · rfl
      · exact h.named name hballot hlog
      · exact Iff.rfl
      · exact Iff.rfl
      · exact h.blocked name

theorem erase (h : directory.Resembles other) (name : String) :
    Directory.Resembles (directory.erase name) (other.erase name) := by
  refine ⟨fun wanted hballot hlog => ?_, fun wanted => ?_⟩ <;>
    rw [Dictionary.get?_erase, Dictionary.get?_erase] <;> split_ifs
  · rfl
  · exact h.named wanted hballot hlog
  · exact Iff.rfl
  · exact h.blocked wanted

theorem removeFile (h : directory.Resembles other) (name : String) :
    (directory.removeFile name).Alike Directory.Resembles (other.removeFile name) := by
  by_cases hblocked : directory.get? name = some .directory
  · have hblocked' := (h.blocked name).1 hblocked
    simp only [Directory.removeFile, hblocked, hblocked']
    exact ⟨rfl, h⟩
  · rw [removeFile_eq hblocked, removeFile_eq (mt (h.blocked name).2 hblocked)]
    exact ⟨rfl, h.erase name⟩

end Directory.Resembles

/-! ## Disks that differ in temporary files -/

/-- The disks are in directories that resemble. -/
def FileStore.Resembles (store other : FileStore) : Prop :=
  store.directory.Resembles other.directory

namespace FileStore.Resembles

variable {store other : FileStore}

theorem loadBallot (h : store.Resembles other) : store.loadBallot = other.loadBallot :=
  read_congr (h.named ballotFile (by decide) (by decide)) _ _

theorem loadLog (h : store.Resembles other) : store.loadLog = other.loadLog :=
  read_congr (h.named logFile (by decide) (by decide)) _ _

theorem saveBallot (h : store.Resembles other) (ballot : Ballot) :
    (store.saveBallot ballot).Alike FileStore.Resembles (other.saveBallot ballot) :=
  Directory.Resembles.replaceFile h (by decide) _

theorem saveLog (h : store.Resembles other) (entries : List Entry) :
    (store.saveLog entries).Alike FileStore.Resembles (other.saveLog entries) :=
  Directory.Resembles.replaceFile h (by decide) _

theorem appendEntries (h : store.Resembles other) (entries : List Entry) :
    (store.appendEntries entries).Alike FileStore.Resembles (other.appendEntries entries) := by
  unfold FileStore.appendEntries
  rw [h.loadLog]
  split
  · exact ⟨rfl, h⟩
  · split
    · exact ⟨rfl, h⟩
    · exact h.saveLog _

theorem truncateFrom (h : store.Resembles other) (start : Nat) :
    (store.truncateFrom start).Alike FileStore.Resembles (other.truncateFrom start) := by
  have hcontains : store.directory.contains logFile = other.directory.contains logFile :=
    congrArg Option.isSome (h.named logFile (by decide) (by decide))
  unfold FileStore.truncateFrom
  rw [h.loadLog, hcontains]
  split
  · exact ⟨rfl, h⟩
  · dsimp only
    split
    · exact ⟨rfl, h⟩
    · exact h.saveLog _

theorem clear (h : store.Resembles other) :
    store.clear.Alike FileStore.Resembles other.clear :=
  (Directory.Resembles.removeFile h ballotFile).andThen fun _ _ _ h => h.removeFile logFile

end FileStore.Resembles

/-! ## Calls -/

/-- Disks in directories that resemble answer every call alike. -/
theorem DiskCall.perform_resembles {store other : FileStore} (h : store.Resembles other)
    (call : DiskCall) :
    ∃ answer after after', call.perform (.files store) = ⟨answer, .files after⟩ ∧
      call.perform (.files other) = ⟨answer, .files after'⟩ ∧ after.Resembles after' := by
  have hchange {change change' : Attempt DiskError Unit FileStore}
      (halike : change.Alike FileStore.Resembles change') :
      ∃ answer after after',
        (change.within Medium.files).map (fun _ => DiskAnswer.done) = ⟨answer, .files after⟩ ∧
          (change'.within Medium.files).map (fun _ => DiskAnswer.done) = ⟨answer, .files after'⟩ ∧
            after.Resembles after' :=
    ⟨_, _, _, rfl, congrArg (Attempt.mk · _) (congrArg _ halike.1.symm), halike.2⟩
  cases call with
  | saveBallot ballot => exact hchange (h.saveBallot ballot)
  | appendEntries entries => exact hchange (h.appendEntries entries)
  | truncateFrom start => exact hchange (h.truncateFrom start)
  | clear => exact hchange h.clear
  | reopen => exact ⟨_, store, other, rfl, rfl, h⟩
  | loadBallot =>
    exact ⟨_, store, other, rfl, congrArg (Attempt.mk · _) (congrArg _ h.loadBallot.symm), h⟩
  | loadLog =>
    exact ⟨_, store, other, rfl, congrArg (Attempt.mk · _) (congrArg _ h.loadLog.symm), h⟩

/-- What a temporary file holds cannot be told from any answers. -/
theorem Medium.answers_resembles {store other : FileStore} (h : store.Resembles other)
    (calls : List DiskCall) :
    (Medium.files store).answers calls = (Medium.files other).answers calls := by
  induction calls generalizing store other with
  | nil => rfl
  | cons call rest ih =>
    obtain ⟨answer, after, after', heq, heq', hafter⟩ := DiskCall.perform_resembles h call
    rw [Medium.answers, Medium.answers, heq, heq']
    exact congrArg (answer :: ·) (ih hafter)

end Quorum
