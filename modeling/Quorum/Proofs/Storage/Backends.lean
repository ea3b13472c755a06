import Quorum.Proofs.Storage.Files
import Quorum.Storage.Medium

set_option autoImplicit false

/-! # Both kinds of disk answer alike

A disk in files that starts from an empty directory gives the same answers as one in memory, call
by call: it never fails, and what it loads is what was saved. What carries this over a sequence of
calls is that each of the two files is missing, as long as there is nothing to be kept, or holds
the indented JSON of what is to be kept. -/

namespace Quorum

/-! ## Calls -/

/-- A call to a disk. -/
inductive DiskCall where
  | saveBallot (ballot : Ballot)
  | loadBallot
  | appendEntries (entries : List Entry)
  | loadLog
  | truncateFrom (start : Nat)
  | clear
  | reopen
  deriving DecidableEq, Repr

/-- What a call gives if it does not fail. -/
inductive DiskAnswer where
  | done
  | ballot (ballot : Ballot)
  | log (entries : List Entry)
  deriving DecidableEq, Repr

/-- Make a call to a disk. -/
def DiskCall.perform (medium : Medium) : DiskCall → Attempt DiskError DiskAnswer Medium
  | .saveBallot ballot => (Storage.saveBallot medium ballot).map fun _ => .done
  | .loadBallot => ⟨(Storage.loadBallot medium).map .ballot, medium⟩
  | .appendEntries entries => (Storage.appendEntries medium entries).map fun _ => .done
  | .loadLog => ⟨(Storage.loadLog medium).map .log, medium⟩
  | .truncateFrom start => (Storage.truncateFrom medium start).map fun _ => .done
  | .clear => medium.clear.map fun _ => .done
  | .reopen => medium.reopen.map fun _ => .done

/-- The answers of a disk to calls that are made one after another. -/
def Medium.answers (medium : Medium) : List DiskCall → List (Except DiskError DiskAnswer)
  | [] => []
  | call :: rest => (call.perform medium).result :: answers (call.perform medium).state rest

/-- What a call changes about the contents. -/
def DiskCall.effect (contents : Contents) : DiskCall → Contents
  | .saveBallot ballot => contents.saveBallot ballot
  | .appendEntries entries => contents.appendEntries entries
  | .truncateFrom start => contents.truncateFrom start
  | .clear => .blank
  | .loadBallot | .loadLog | .reopen => contents

/-- What a call is to give, from the contents that it finds. -/
def DiskCall.answer (contents : Contents) : DiskCall → DiskAnswer
  | .loadBallot => .ballot contents.ballot
  | .loadLog => .log contents.log
  | .saveBallot _ | .appendEntries _ | .truncateFrom _ | .clear | .reopen => .done

/-- What calls are to give that are made one after another. -/
def Contents.answers (contents : Contents) : List DiskCall → List DiskAnswer
  | [] => []
  | call :: rest => call.answer contents :: answers (call.effect contents) rest

/-! ## Numbers of 64 bits -/

/-- The numbers that are written have at most 64 bits. -/
structure Contents.Fits (contents : Contents) : Prop where
  ballot : contents.ballot.Fits
  log : ∀ entry ∈ contents.log, entry.Fits

/-- The numbers that a call wants to be written have at most 64 bits. -/
def DiskCall.Fits : DiskCall → Prop
  | .saveBallot ballot => ballot.Fits
  | .appendEntries entries => ∀ entry ∈ entries, entry.Fits
  | .loadBallot | .loadLog | .truncateFrom _ | .clear | .reopen => True

instance : (call : DiskCall) → Decidable call.Fits
  | .saveBallot ballot => inferInstanceAs (Decidable ballot.Fits)
  | .appendEntries entries => inferInstanceAs (Decidable (∀ entry ∈ entries, entry.Fits))
  | .loadBallot | .loadLog | .truncateFrom _ | .clear | .reopen => inferInstanceAs (Decidable True)

theorem Contents.fits_blank : Contents.blank.Fits where
  ballot := ⟨by decide, fun _ hid => nomatch hid⟩
  log := fun _ hentry => nomatch hentry

theorem Contents.Fits.effect {contents : Contents} (h : contents.Fits) {call : DiskCall}
    (hcall : call.Fits) : (call.effect contents).Fits := by
  cases call with
  | saveBallot ballot => exact ⟨hcall, h.log⟩
  | appendEntries entries =>
      refine ⟨h.ballot, fun entry hentry => ?_⟩
      obtain hold | hnew := List.mem_append.1 hentry
      · exact h.log entry hold
      · exact hcall entry hnew
  | truncateFrom start =>
      exact ⟨h.ballot, fun entry hentry => h.log entry (List.mem_of_mem_filter hentry)⟩
  | clear => exact Contents.fits_blank
  | loadBallot | loadLog | reopen => exact h

/-- If no entry is removed, nothing changes. -/
theorem Contents.truncateFrom_eq_self {contents : Contents} {start : Nat}
    (h : (contents.log.filter (·.index < start)).length = contents.log.length) :
    contents.truncateFrom start = contents := by
  have hkept := List.filter_sublist.eq_of_length h
  rw [Contents.truncateFrom, hkept]

/-! ## What a disk in files holds -/

/-- The files keep the contents, which are made of numbers that can be read. -/
structure FileStore.Holds (store : FileStore) (contents : Contents) : Prop where
  ballot : store.directory.Keeps ballotFile ballotTemporary contents.ballot.toJson
    (contents.ballot = .blank)
  log : store.directory.Keeps logFile logTemporary (entriesToJson contents.log)
    (contents.log = [])
  fits : contents.Fits

namespace FileStore.Holds

variable {store : FileStore} {contents : Contents}

theorem loadBallot (h : store.Holds contents) : store.loadBallot = .ok contents.ballot :=
  store.read_eq h.ballot contents.ballot.plain_toJson (Ballot.ofJson?_toJson h.fits.ballot) id

theorem loadLog (h : store.Holds contents) : store.loadLog = .ok contents.log :=
  store.read_eq h.log (plain_entriesToJson _) (entriesOfJson?_entriesToJson h.fits.log) id

theorem saveBallot (h : store.Holds contents) {ballot : Ballot}
    (hfits : (contents.saveBallot ballot).Fits) :
    ∃ after : FileStore, store.saveBallot ballot = .ok () after ∧
      after.Holds (contents.saveBallot ballot) := by
  obtain ⟨after, hwrite, hkeeps, hother⟩ :=
    store.write_eq h.ballot (by decide) ballot.toJson (ballot = .blank)
  exact ⟨⟨after⟩, hwrite, hkeeps,
    h.log.congr (hother _ (by decide) (by decide)) (hother _ (by decide) (by decide)), hfits⟩

theorem saveLog (h : store.Holds contents) {entries : List Entry}
    (hfits : Contents.Fits { contents with log := entries }) :
    ∃ after : FileStore, store.saveLog entries = .ok () after ∧
      after.Holds { contents with log := entries } := by
  obtain ⟨after, hwrite, hkeeps, hother⟩ :=
    store.write_eq h.log (by decide) (entriesToJson entries) (entries = [])
  exact ⟨⟨after⟩, hwrite,
    h.ballot.congr (hother _ (by decide) (by decide)) (hother _ (by decide) (by decide)),
    hkeeps, hfits⟩

theorem appendEntries (h : store.Holds contents) {entries : List Entry}
    (hfits : (contents.appendEntries entries).Fits) :
    ∃ after : FileStore, store.appendEntries entries = .ok () after ∧
      after.Holds (contents.appendEntries entries) := by
  unfold FileStore.appendEntries
  split
  · next hempty =>
      refine ⟨store, rfl, ?_⟩
      rw [List.isEmpty_iff.1 hempty]
      simpa [Contents.appendEntries] using h
  · rw [h.loadLog]
    exact h.saveLog hfits

/-- If nothing is removed, the file stays as it is; if there is none, it is made. -/
theorem truncateFrom (h : store.Holds contents) (start : Nat)
    (hfits : (contents.truncateFrom start).Fits) :
    ∃ after : FileStore, store.truncateFrom start = .ok () after ∧
      after.Holds (contents.truncateFrom start) := by
  unfold FileStore.truncateFrom
  rw [h.loadLog]
  dsimp only
  split
  · next hsame =>
      simp only [Bool.and_eq_true, decide_eq_true_eq] at hsame
      refine ⟨store, rfl, ?_⟩
      rw [Contents.truncateFrom_eq_self hsame.1]
      exact h
  · exact h.saveLog hfits

theorem clear (h : store.Holds contents) :
    ∃ after : FileStore, store.clear = .ok () after ∧ after.Holds .blank := by
  have hballot : Directory.Keeps (store.directory.erase ballotFile) ballotFile ballotTemporary
      Ballot.blank.toJson (Ballot.blank = .blank) := h.ballot.erase (by decide) _ rfl
  have hlog : Directory.Keeps (store.directory.erase ballotFile) logFile logTemporary
      (entriesToJson contents.log) (contents.log = []) :=
    h.log.congr (Dictionary.get?_erase_of_ne _ (by decide))
      (Dictionary.get?_erase_of_ne _ (by decide))
  refine ⟨⟨(store.directory.erase ballotFile).erase logFile⟩, ?_,
    hballot.congr (Dictionary.get?_erase_of_ne _ (by decide))
      (Dictionary.get?_erase_of_ne _ (by decide)),
    hlog.erase (by decide) _ rfl, Contents.fits_blank⟩
  rw [FileStore.clear, removeFile_eq h.ballot.not_directory, Attempt.andThen_ok,
    removeFile_eq hlog.not_directory]
  rfl

end FileStore.Holds

theorem FileStore.holds_blank : FileStore.Holds ⟨.empty⟩ .blank where
  ballot := ⟨.inr ⟨rfl, rfl⟩, nofun⟩
  log := ⟨.inr ⟨rfl, rfl⟩, nofun⟩
  fits := Contents.fits_blank

/-! ## Every call -/

/-- In memory a call gives what it is to give, and changes what it is to change. -/
theorem DiskCall.perform_memory (contents : Contents) (call : DiskCall) :
    call.perform (.memory contents) =
      .ok (call.answer contents) (.memory (call.effect contents)) := by
  cases call <;> rfl

/-- In files that hold the contents it does the same, and they hold what it leaves. -/
theorem DiskCall.perform_files {store : FileStore} {contents : Contents}
    (h : store.Holds contents) {call : DiskCall} (hcall : call.Fits) :
    ∃ after : FileStore, call.perform (.files store) = .ok (call.answer contents) (.files after) ∧
      after.Holds (call.effect contents) := by
  have hfits := h.fits.effect hcall
  have hdone {change : Attempt DiskError Unit FileStore} {after : FileStore}
      (hchange : change = .ok () after) :
      (change.within Medium.files).map (fun _ => DiskAnswer.done) =
        .ok .done (.files after) := by
    rw [hchange]
    rfl
  cases call with
  | saveBallot ballot =>
      obtain ⟨after, hsave, hafter⟩ := h.saveBallot hfits
      exact ⟨after, hdone hsave, hafter⟩
  | appendEntries entries =>
      obtain ⟨after, happend, hafter⟩ := h.appendEntries hfits
      exact ⟨after, hdone happend, hafter⟩
  | truncateFrom start =>
      obtain ⟨after, htruncate, hafter⟩ := h.truncateFrom start hfits
      exact ⟨after, hdone htruncate, hafter⟩
  | clear =>
      obtain ⟨after, hclear, hafter⟩ := h.clear
      exact ⟨after, hdone hclear, hafter⟩
  | reopen => exact ⟨store, hdone rfl, h⟩
  | loadBallot =>
      refine ⟨store, ?_, h⟩
      show Attempt.mk (store.loadBallot.map DiskAnswer.ballot) _ = _
      rw [h.loadBallot]
      rfl
  | loadLog =>
      refine ⟨store, ?_, h⟩
      show Attempt.mk (store.loadLog.map DiskAnswer.log) _ = _
      rw [h.loadLog]
      rfl

/-! ## Many calls -/

theorem Medium.answers_memory (contents : Contents) (calls : List DiskCall) :
    (Medium.memory contents).answers calls = (contents.answers calls).map .ok := by
  induction calls generalizing contents with
  | nil => rfl
  | cons call rest ih =>
      simp only [Medium.answers, Contents.answers, List.map_cons, call.perform_memory contents]
      exact congrArg _ (ih _)

theorem Medium.answers_files {store : FileStore} {contents : Contents} (h : store.Holds contents)
    {calls : List DiskCall} (hcalls : ∀ call ∈ calls, call.Fits) :
    (Medium.files store).answers calls = (contents.answers calls).map .ok := by
  induction calls generalizing store contents with
  | nil => rfl
  | cons call rest ih =>
      have ⟨hcall, hrest⟩ := List.forall_mem_cons.1 hcalls
      obtain ⟨after, hperform, hafter⟩ := DiskCall.perform_files h hcall
      simp only [Medium.answers, Contents.answers, List.map_cons, hperform]
      exact congrArg _ (ih hafter hrest)

/-- A fresh disk in files answers every sequence of calls as a fresh disk in memory does: no call
    fails, and what is loaded is what was saved, appended and not removed since. -/
theorem Medium.answers_inFiles (calls : List DiskCall) (h : ∀ call ∈ calls, call.Fits) :
    Medium.inFiles.answers calls = Medium.inMemory.answers calls ∧
      Medium.inFiles.answers calls = (Contents.blank.answers calls).map .ok := by
  have hfiles := Medium.answers_files FileStore.holds_blank h
  exact ⟨hfiles.trans (Medium.answers_memory .blank calls).symm, hfiles⟩

/-- Numbers of full size, entries out of order, a truncation before there is a log, one that removes
    an entry from the middle, a disk that is opened again, and one that is cleared. -/
theorem Medium.answers_inFiles_session :
    let limit := 2 ^ 64 - 1
    let calls : List DiskCall :=
      [.saveBallot ⟨limit, some ⟨limit⟩⟩, .truncateFrom 5, .appendEntries [],
        .appendEntries [⟨limit, 7, [0, 34, 255]⟩, ⟨1, 2, []⟩], .loadLog, .reopen,
        .truncateFrom 5, .loadLog, .loadBallot, .clear, .loadBallot, .loadLog]
    Medium.inFiles.answers calls = Medium.inMemory.answers calls ∧
      Medium.inFiles.answers calls =
        [.ok .done, .ok .done, .ok .done, .ok .done,
          .ok (.log [⟨limit, 7, [0, 34, 255]⟩, ⟨1, 2, []⟩]), .ok .done, .ok .done,
          .ok (.log [⟨1, 2, []⟩]), .ok (.ballot ⟨limit, some ⟨limit⟩⟩), .ok .done,
          .ok (.ballot ⟨0, none⟩), .ok (.log [])] := by
  intro limit calls
  have h := Medium.answers_inFiles calls (by decide)
  exact ⟨h.1, h.2.trans (by rfl)⟩

end Quorum
