import Quorum.Proofs.State.Answers
import Quorum.Proofs.Storage.Leftovers

set_option autoImplicit false

/-! # A change that is cut off

The machine can stop at any point of a change to a disk in files, and every call to the file system
can fail. Whatever has happened until then, the disk holds afterwards what it held before, or what
it would hold if the change had come to its end: the file that is replaced is not touched until the
temporary one is complete, and is then replaced at once. -/

namespace Quorum

open FileStore

/-! ## Where a change can be cut off -/

/-- What is left of a change to a directory that stops half way. This can only be seen of what a
    file holds: names are changed at once. -/
inductive FileAction.StopsHalfWay (directory : Directory) : FileAction → Directory → Prop where
  /-- A part of what the file held before is still there. -/
  | create {name : String} {before part : Bytes}
      (hbefore : directory.get? name = some (.file before)) (hpart : part <+: before) :
      StopsHalfWay directory (.create name) (directory.insert name (.file part))
  | write {name : String} {before bytes part : Bytes}
      (hbefore : directory.get? name = some (.file before)) (hpart : part <+: bytes) :
      StopsHalfWay directory (.write name bytes) (directory.insert name (.file (before ++ part)))

/-- What can be left of changes to a directory that are cut off: some of them are made, and one more
    perhaps half way. -/
inductive CutOff : Directory → List FileAction → Directory → Prop where
  | before (directory : Directory) (actions : List FileAction) : CutOff directory actions directory
  | within {directory after : Directory} {action : FileAction}
      (hstops : action.StopsHalfWay directory after) (rest : List FileAction) :
      CutOff directory (action :: rest) after
  | later {directory next after : Directory} {action : FileAction} {rest : List FileAction}
      (haction : action.perform directory = .ok next) (hrest : CutOff next rest after) :
      CutOff directory (action :: rest) after

/-- Changes that come to their end, or to one that fails, are cut off as late as can be. -/
theorem cutOff_performAll (directory : Directory) (actions : List FileAction) :
    CutOff directory actions (performAll directory actions).state := by
  induction actions generalizing directory with
  | nil => exact .before directory []
  | cons action rest ih =>
    unfold performAll
    split
    · next next haction => exact .later haction (ih next)
    · exact .before directory _

/-- Either the first changes are cut off, or they are made and the others are. -/
theorem CutOff.of_append {directory after : Directory} {first rest : List FileAction}
    (h : CutOff directory (first ++ rest) after) :
    CutOff directory first after ∨
      ∃ next, performAll directory first = .ok () next ∧ CutOff next rest after := by
  induction first generalizing directory with
  | nil => exact .inr ⟨directory, rfl, h⟩
  | cons action first ih =>
    cases h with
    | before => exact .inl (.before _ _)
    | within hstops => exact .inl (.within hstops first)
    | later haction hrest =>
      rcases ih hrest with hfirst | ⟨next, hperform, hnext⟩
      · exact .inl (.later haction hfirst)
      · exact .inr ⟨next, (performAll_cons haction).trans hperform, hnext⟩

/-! ## What is touched -/

/-- The names that may stand for something else after a change. -/
def FileAction.names : FileAction → List String
  | .create name | .write name _ | .sync name => [name]
  | .rename source target => [source, target]
  | .syncNames => []

theorem FileAction.get?_of_perform {directory after : Directory} {action : FileAction}
    (h : action.perform directory = .ok after) {name : String} (hname : name ∉ action.names) :
    after.get? name = directory.get? name := by
  cases action with
  | create other =>
    simp only [FileAction.perform] at h
    split at h
    · cases h
    · cases h
      rw [Dictionary.get?_insert, if_neg (List.ne_of_not_mem_cons hname)]
  | write other bytes =>
    simp only [FileAction.perform] at h
    split at h
    · cases h
      rw [Dictionary.get?_insert, if_neg (List.ne_of_not_mem_cons hname)]
    · cases h
  | sync | syncNames =>
    cases h
    rfl
  | rename source target =>
    have hsource := List.ne_of_not_mem_cons hname
    have htarget := List.ne_of_not_mem_cons (List.not_mem_of_not_mem_cons hname)
    simp only [FileAction.perform] at h
    split at h
    · cases h
    · cases h
    · cases h
      rw [Dictionary.get?_insert, if_neg htarget, Dictionary.get?_erase, if_neg hsource]

theorem FileAction.StopsHalfWay.get? {directory after : Directory} {action : FileAction}
    (h : action.StopsHalfWay directory after) {name : String} (hname : name ∉ action.names) :
    after.get? name = directory.get? name := by
  cases h <;> rw [Dictionary.get?_insert, if_neg (List.ne_of_not_mem_cons hname)]

/-- A name that none of the changes is about stands for what it did, wherever they are cut off. -/
theorem CutOff.get? {directory after : Directory} {actions : List FileAction}
    (h : CutOff directory actions after) {name : String}
    (hname : ∀ action ∈ actions, name ∉ action.names) :
    after.get? name = directory.get? name := by
  induction h with
  | before => rfl
  | within hstops rest => exact hstops.get? (hname _ List.mem_cons_self)
  | later haction _ ih =>
    rw [ih fun action haction => hname action (List.mem_cons_of_mem _ haction)]
    exact FileAction.get?_of_perform haction (hname _ List.mem_cons_self)

/-! ## Replacing a file -/

/-- Nothing is touched but the file that is replaced and the temporary one. -/
theorem CutOff.get?_of_replaceFile {directory after : Directory} {target temporary : String}
    {bytes : Bytes} (h : CutOff directory (replaceFile target temporary bytes) after)
    (name : String) (htarget : name ≠ target) (htemporary : name ≠ temporary) :
    after.get? name = directory.get? name := by
  refine h.get? fun action haction => ?_
  simp only [replaceFile, List.mem_cons, List.not_mem_nil, or_false] at haction
  rcases haction with rfl | rfl | rfl | rfl | rfl <;> simp [FileAction.names, htarget, htemporary]

/-- The changes that fill a temporary file. -/
def fillFile (temporary : String) (bytes : Bytes) : List FileAction :=
  [.create temporary, .write temporary bytes, .sync temporary]

theorem replaceFile_eq (target temporary : String) (bytes : Bytes) :
    replaceFile target temporary bytes =
      fillFile temporary bytes ++ [.rename temporary target, .syncNames] := rfl

/-- A temporary file that is filled holds all of what it is to hold. -/
theorem get?_of_fillFile {directory after : Directory} {temporary : String} {bytes : Bytes}
    (h : performAll directory (fillFile temporary bytes) = .ok () after) :
    after.get? temporary = some (.file bytes) := by
  unfold fillFile at h
  by_cases htemporary : directory.get? temporary = some .directory
  · simp [performAll, FileAction.perform, htemporary, Attempt.error, Attempt.ok] at h
  · obtain ⟨created, filled, hcreate, hwrite, hfilled⟩ := perform_fill bytes htemporary
    rw [performAll_cons hcreate, performAll_cons hwrite, performAll_cons rfl] at h
    obtain rfl : filled = after := congrArg Attempt.state h
    exact (hfilled temporary).trans (if_pos rfl)

/-- A file that is replaced holds what it did or all of what it is to hold. -/
theorem CutOff.get?_target {directory after : Directory} {target temporary : String}
    {bytes : Bytes} (hne : target ≠ temporary)
    (h : CutOff directory (replaceFile target temporary bytes) after) :
    after.get? target = directory.get? target ∨ after.get? target = some (.file bytes) := by
  have hfill : ∀ action ∈ fillFile temporary bytes, target ∉ action.names := by
    simp [fillFile, FileAction.names, hne]
  rw [replaceFile_eq] at h
  rcases h.of_append with hfirst | ⟨next, hfilled, hrest⟩
  · exact .inl (hfirst.get? hfill)
  have hsource := get?_of_fillFile hfilled
  have htarget : next.get? target = directory.get? target := by
    have hframe := (cutOff_performAll directory _).get? hfill
    rwa [hfilled] at hframe
  cases hrest with
  | before => exact .inl htarget
  | within hstops => cases hstops
  | later hrename hrest =>
    -- the name is there, and nothing that follows is about it
    refine .inr ((hrest.get? (by simp [FileAction.names])).trans ?_)
    simp only [FileAction.perform, hsource, Node.readBytes] at hrename
    split at hrename
    · cases hrename
    · cases hrename
    · next heq _ =>
      cases heq
      cases hrename
      rw [Dictionary.get?_insert, if_pos rfl]

/-- A temporary file may be left with any first part of what it is to hold. -/
theorem exists_cutOff_write {directory : Directory} {temporary : String}
    (htemporary : directory.get? temporary ≠ some .directory) (target : String)
    {part bytes : Bytes} (hpart : part <+: bytes) :
    ∃ after, CutOff directory (replaceFile target temporary bytes) after ∧
      after.get? temporary = some (.file part) := by
  obtain ⟨created, hcreate, hcreated⟩ := perform_create htemporary
  have hempty : created.get? temporary = some (.file []) := (hcreated temporary).trans (if_pos rfl)
  refine ⟨_, .later hcreate (.within (.write hempty hpart) _), ?_⟩
  rw [Dictionary.get?_insert, if_pos rfl, List.nil_append]

/-! ## Changing a disk -/

/-- The disk can be read, and holds the contents. -/
structure FileStore.Loads (store : FileStore) (contents : Contents) : Prop where
  ballot : store.loadBallot = .ok contents.ballot
  log : store.loadLog = .ok contents.log

/-- What is read from a disk could be written to it again. -/
theorem FileStore.Loads.fits {store : FileStore} {contents : Contents} (h : store.Loads contents) :
    contents.Fits where
  ballot := by
    rcases exists_json_of_read h.ballot with hblank | ⟨json, hjson⟩
    · exact hblank ▸ Contents.fits_blank.ballot
    · exact Ballot.fits_of_ofJson? hjson
  log := by
    rcases exists_json_of_read h.log with hempty | ⟨json, hjson⟩
    · exact hempty ▸ nofun
    · exact fits_of_entriesOfJson? hjson

/-- The call that asks for a change. -/
def DiskChange.call : DiskChange → DiskCall
  | .saveBallot ballot => .saveBallot ballot
  | .appendEntries entries => .appendEntries entries
  | .truncateFrom start => .truncateFrom start

/-- What a change is not about is read as before. -/
def DiskChange.Spares (change : DiskChange) (store after : FileStore) : Prop :=
  match change with
  | .saveBallot _ => after.loadLog = store.loadLog
  | .appendEntries _ | .truncateFrom _ => after.loadBallot = store.loadBallot

namespace FileStore

/-- The changes to the directory that replace the ballot. -/
def ballotActions (ballot : Ballot) : List FileAction :=
  replaceFile ballotFile ballotTemporary (utf8 ballot.toJson.toIndented)

/-- The changes to the directory that replace the log. -/
def logActions (entries : List Entry) : List FileAction :=
  replaceFile logFile logTemporary (utf8 (entriesToJson entries).toIndented)

/-- The changes to the directory that a change of the disk comes down to; none if the log has to be
    read first and cannot be. -/
def actions (store : FileStore) (change : DiskChange) : List FileAction :=
  match change, store.loadLog with
  | .saveBallot ballot, _ => ballotActions ballot
  | .appendEntries entries, .ok log =>
      if entries.isEmpty then [] else logActions (log ++ entries)
  | .truncateFrom start, .ok log =>
      let kept := log.filter (·.index < start)
      if kept.length = log.length && store.directory.contains logFile then [] else logActions kept
  | _, .error _ => []

/-- To change a disk whose log can be read is to make these changes to its directory. -/
theorem make_eq {store : FileStore} {log : List Entry} (h : store.loadLog = .ok log)
    (change : DiskChange) :
    change.make store =
      (performAll store.directory (store.actions change)).within FileStore.mk := by
  cases change with
  | saveBallot ballot => rfl
  | appendEntries entries =>
    show store.appendEntries entries = _
    simp only [FileStore.appendEntries, actions, h]
    split <;> rfl
  | truncateFrom start =>
    show store.truncateFrom start = _
    simp only [FileStore.truncateFrom, actions, h]
    split <;> rfl

/-- What a change makes of the directory, and of the contents. -/
inductive Rewrites (contents : Contents) (change : DiskChange) : List FileAction → Prop where
  | nothing (heffect : change.call.effect contents = contents) : Rewrites contents change []
  | ballot (ballot : Ballot) (heffect : change.call.effect contents = contents.saveBallot ballot) :
      Rewrites contents change (ballotActions ballot)
  | log (entries : List Entry)
      (heffect : change.call.effect contents = { contents with log := entries }) :
      Rewrites contents change (logActions entries)

theorem rewrites_actions {store : FileStore} {contents : Contents} (h : store.Loads contents)
    (change : DiskChange) : Rewrites contents change (store.actions change) := by
  cases change with
  | saveBallot ballot => exact .ballot ballot rfl
  | appendEntries entries =>
    simp only [actions, h.log]
    split
    · next hempty =>
      refine .nothing ?_
      simp [DiskChange.call, DiskCall.effect, Contents.appendEntries, List.isEmpty_iff.1 hempty]
    · exact .log _ rfl
  | truncateFrom start =>
    simp only [actions, h.log]
    split
    · next hsame =>
      simp only [Bool.and_eq_true, decide_eq_true_eq] at hsame
      exact .nothing (Contents.truncateFrom_eq_self hsame.1)
    · exact .log _ rfl

namespace Loads

variable {store : FileStore} {contents : Contents}

/-- What is read depends on two names. -/
theorem congr (h : store.Loads contents) {after : Directory}
    (hballot : after.get? ballotFile = store.directory.get? ballotFile)
    (hlog : after.get? logFile = store.directory.get? logFile) :
    FileStore.Loads ⟨after⟩ contents :=
  ⟨(read_congr hballot _ _).trans h.ballot, (read_congr hlog _ _).trans h.log⟩

theorem of_ballotFile (h : store.Loads contents) {ballot : Ballot} (hfits : ballot.Fits)
    {after : Directory}
    (hballot : after.get? ballotFile = some (.file (utf8 ballot.toJson.toIndented)))
    (hlog : after.get? logFile = store.directory.get? logFile) :
    FileStore.Loads ⟨after⟩ (contents.saveBallot ballot) :=
  ⟨read_of_file hballot ballot.plain_toJson _ (Ballot.ofJson?_toJson hfits),
    (read_congr hlog _ _).trans h.log⟩

theorem of_logFile (h : store.Loads contents) {entries : List Entry}
    (hfits : ∀ entry ∈ entries, entry.Fits) {after : Directory}
    (hballot : after.get? ballotFile = store.directory.get? ballotFile)
    (hlog : after.get? logFile = some (.file (utf8 (entriesToJson entries).toIndented))) :
    FileStore.Loads ⟨after⟩ { contents with log := entries } :=
  ⟨(read_congr hballot _ _).trans h.ballot,
    read_of_file hlog (plain_entriesToJson entries) _ (entriesOfJson?_entriesToJson hfits)⟩

/-- Wherever a change is cut off, the disk holds what it did or what the change makes of it. -/
theorem cutOff (h : store.Loads contents) {change : DiskChange} (hfits : change.call.Fits)
    {after : Directory} (hcut : CutOff store.directory (store.actions change) after) :
    FileStore.Loads ⟨after⟩ contents ∨ FileStore.Loads ⟨after⟩ (change.call.effect contents) := by
  have hrewrites := rewrites_actions h change
  have hfits' := h.fits.effect hfits
  generalize store.actions change = actions at hcut hrewrites
  cases hrewrites with
  | nothing =>
    cases hcut
    exact .inl h
  | ballot ballot heffect =>
    rw [heffect] at hfits' ⊢
    have hlog := hcut.get?_of_replaceFile logFile (by decide) (by decide)
    rcases hcut.get?_target (by decide) with hold | hnew
    · exact .inl (h.congr hold hlog)
    · exact .inr (h.of_ballotFile hfits'.ballot hnew hlog)
  | log entries heffect =>
    rw [heffect] at hfits' ⊢
    have hballot := hcut.get?_of_replaceFile ballotFile (by decide) (by decide)
    rcases hcut.get?_target (by decide) with hold | hnew
    · exact .inl (h.congr hballot hold)
    · exact .inr (h.of_logFile hfits'.log hballot hnew)

/-- A change comes to its end if no directory is in the way of a temporary file. -/
theorem exists_make (h : store.Loads contents) {change : DiskChange} (hfits : change.call.Fits)
    (hfree : ∀ name ∈ [ballotTemporary, logTemporary],
      store.directory.get? name ≠ some .directory) :
    ∃ after : FileStore, change.make store = .ok () after ∧
      after.Loads (change.call.effect contents) := by
  have hrewrites := rewrites_actions h change
  have hfits' := h.fits.effect hfits
  rw [make_eq h.log]
  generalize store.actions change = actions at hrewrites
  cases hrewrites with
  | nothing heffect => exact ⟨store, rfl, heffect.symm ▸ h⟩
  | ballot ballot heffect =>
    rw [heffect] at hfits' ⊢
    obtain ⟨after, hperform, hafter⟩ :=
      performAll_replaceFile (utf8 ballot.toJson.toIndented) (by decide)
        (not_directory_of_read h.ballot) (hfree ballotTemporary (by decide))
    rw [ballotActions, hperform]
    exact ⟨⟨after⟩, rfl, h.of_ballotFile hfits'.ballot (hafter ballotFile) (hafter logFile)⟩
  | log entries heffect =>
    rw [heffect] at hfits' ⊢
    obtain ⟨after, hperform, hafter⟩ :=
      performAll_replaceFile (utf8 (entriesToJson entries).toIndented) (by decide)
        (not_directory_of_read h.log) (hfree logTemporary (by decide))
    rw [logActions, hperform]
    exact ⟨⟨after⟩, rfl, h.of_logFile hfits'.log (hafter ballotFile) (hafter logFile)⟩

/-- What is loaded when the disk is opened again. -/
theorem answers (h : store.Loads contents) :
    (Medium.files store).answers [.reopen, .loadBallot, .loadLog] =
      [.ok .done, .ok (.ballot contents.ballot), .ok (.log contents.log)] := by
  have hballot : (Storage.loadBallot (Medium.files store)).map DiskAnswer.ballot =
      .ok (.ballot contents.ballot) := congrArg (Except.map _) h.ballot
  have hlog : (Storage.loadLog (Medium.files store)).map DiskAnswer.log =
      .ok (.log contents.log) := congrArg (Except.map _) h.log
  exact congrArg₂ (fun ballot log => [.ok .done, ballot, log]) hballot hlog

end Loads

/-! ## All or nothing -/

/-- How a disk is left by a change that was cut off. -/
structure Interrupted (store : FileStore) (contents : Contents) (change : DiskChange)
    (after : FileStore) : Prop where
  /-- It is the whole of the change that was cut off. -/
  makes : change.make store =
    (performAll store.directory (store.actions change)).within FileStore.mk
  /-- Opened again, it gives what it gave before, or what it is to give after the change. -/
  answers : ∃ left, (left = contents ∨ left = change.call.effect contents) ∧
    (Medium.files after).answers [.reopen, .loadBallot, .loadLog] =
      [.ok .done, .ok (.ballot left.ballot), .ok (.log left.log)]
  spared : change.Spares store after
  /-- What it is to give after the change is what a change that comes to its end makes of it. -/
  completes : (∀ name ∈ [ballotTemporary, logTemporary],
      store.directory.get? name ≠ some .directory) →
    ∃ complete : FileStore, change.make store = .ok () complete ∧
      complete.Loads (change.call.effect contents)
  /-- What a temporary file holds has no influence on whatever is asked of the disk later. -/
  leftovers : ∀ other : FileStore, after.Resembles other →
    ∀ calls, (Medium.files other).answers calls = (Medium.files after).answers calls

/-- A change of a disk that can be read is made as a whole or not at all, wherever it is cut off. -/
theorem cut_off_interrupted {store : FileStore} {contents : Contents} (h : store.Loads contents)
    {change : DiskChange} (hfits : change.call.Fits) {after : Directory}
    (hcut : CutOff store.directory (store.actions change) after) :
    store.Interrupted contents change ⟨after⟩ := by
  have hloads := h.cutOff hfits hcut
  constructor
  · exact make_eq h.log change
  · rcases hloads with hold | hnew
    · exact ⟨contents, .inl rfl, hold.answers⟩
    · exact ⟨_, .inr rfl, hnew.answers⟩
  · cases change with
    | saveBallot ballot =>
      exact hloads.elim (·.log.trans h.log.symm) (·.log.trans h.log.symm)
    | appendEntries entries =>
      exact hloads.elim (·.ballot.trans h.ballot.symm) (·.ballot.trans h.ballot.symm)
    | truncateFrom start =>
      exact hloads.elim (·.ballot.trans h.ballot.symm) (·.ballot.trans h.ballot.symm)
  · exact h.exists_make hfits
  · exact fun other hother calls => (Medium.answers_resembles hother calls).symm

/-- A disk with a vote and an entry, and a temporary file that was never complete. -/
def littered : FileStore where
  directory :=
    let ballot := utf8 (Ballot.mk 7 (some ⟨2⟩)).toJson.toIndented
    let log := utf8 (entriesToJson [⟨1, 1, [65]⟩]).toIndented
    ((Dictionary.empty.insert ballotFile (.file ballot)).insert logFile (.file log)).insert
      logTemporary (.file [91, 123])

theorem loads_littered : littered.Loads ⟨⟨7, some ⟨2⟩⟩, [⟨1, 1, [65]⟩]⟩ where
  ballot := read_of_file rfl (Ballot.plain_toJson _) _ (Ballot.ofJson?_toJson (by decide))
  log := read_of_file rfl (plain_entriesToJson _) _ (entriesOfJson?_entriesToJson (by decide))

/-- The first 20 bytes of a longer log are written when the machine stops. -/
theorem cut_off_interrupted_append :
    let contents : Contents := ⟨⟨7, some ⟨2⟩⟩, [⟨1, 1, [65]⟩]⟩
    let change : DiskChange := .appendEntries [⟨7, 2, [66]⟩]
    let bytes := utf8 (entriesToJson [⟨1, 1, [65]⟩, ⟨7, 2, [66]⟩]).toIndented
    ∃ after : Directory, CutOff littered.directory (littered.actions change) after ∧
      after.get? logTemporary = some (.file (bytes.take 20)) ∧
        littered.Interrupted contents change ⟨after⟩ := by
  intro contents change bytes
  have hactions : littered.actions change = logActions [⟨1, 1, [65]⟩, ⟨7, 2, [66]⟩] := by
    simp [actions, loads_littered.log, change]
  have hfree : littered.directory.get? logTemporary ≠ some .directory := by decide
  obtain ⟨after, hcut, hafter⟩ := exists_cutOff_write hfree logFile (List.take_prefix 20 bytes)
  have hcut : CutOff littered.directory (littered.actions change) after := hactions ▸ hcut
  exact ⟨after, hcut, hafter, cut_off_interrupted loads_littered (by decide) hcut⟩

/-! ## One stop after another -/

/-- Changes are made one after another and each of them is cut off somewhere, perhaps only at its
    end. -/
inductive CutsOff : FileStore → List DiskChange → FileStore → Prop where
  | none (store : FileStore) : CutsOff store [] store
  | cons {store last : FileStore} {change : DiskChange} {rest : List DiskChange} {after : Directory}
      (hcut : CutOff store.directory (store.actions change) after)
      (hrest : CutsOff ⟨after⟩ rest last) : CutsOff store (change :: rest) last

/-- Some of the changes are made, in their order, and the others leave nothing behind. -/
theorem Loads.cutsOff {store last : FileStore} {contents : Contents} (h : store.Loads contents)
    {changes : List DiskChange} (hfits : ∀ change ∈ changes, change.call.Fits)
    (hcuts : CutsOff store changes last) :
    ∃ made : List DiskChange, made.Sublist changes ∧
      last.Loads (made.foldl (fun contents change => change.call.effect contents) contents) := by
  induction hcuts generalizing contents with
  | none store => exact ⟨[], List.Sublist.slnil, h⟩
  | @cons store last change rest after hcut hrest ih =>
    obtain ⟨hchange, hrestFits⟩ := List.forall_mem_cons.1 hfits
    rcases h.cutOff hchange hcut with hold | hnew
    · obtain ⟨made, hmade, hlast⟩ := ih hold hrestFits
      exact ⟨made, hmade.cons change, hlast⟩
    · obtain ⟨made, hmade, hlast⟩ := ih hnew hrestFits
      exact ⟨change :: made, hmade.cons_cons change, hlast⟩

end FileStore

end Quorum
