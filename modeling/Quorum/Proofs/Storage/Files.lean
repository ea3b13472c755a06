import Quorum.Proofs.Message
import Quorum.Storage.File

set_option autoImplicit false

/-! # A value in a file

A value that is written by way of a temporary file is found under its name afterwards, exactly as
it was, and no other name is touched. A file that is missing stands for a value as well: the one
that is assumed when nothing was written yet. -/

namespace Quorum

/-! ## Ballots as JSON -/

/-- The numbers of a ballot have at most 64 bits. -/
@[mk_iff]
structure Ballot.Fits (ballot : Ballot) : Prop where
  term : ballot.term < wordLimit
  vote : ∀ id ∈ ballot.vote, id.number < wordLimit

instance (ballot : Ballot) : Decidable ballot.Fits :=
  decidable_of_iff _ (Ballot.fits_iff ballot).symm

theorem Ballot.plain_toJson (ballot : Ballot) : ballot.toJson.Plain := by
  refine Json.plain_ofFields fun field hfield => ?_
  simp only [List.mem_cons, List.not_mem_nil, or_false] at hfield
  obtain rfl | rfl := hfield
  · exact .natural _
  · cases ballot.vote with
    | none => exact .null
    | some id => exact .natural _

theorem Ballot.ofJson?_toJson {ballot : Ballot} (h : ballot.Fits) :
    Ballot.ofJson? ballot.toJson = some ballot := by
  have hfields : ballot.toJson.fields? ["term", "voted_for"] =
      some ⟨false, [some (.natural ballot.term),
        some ((ballot.vote.map fun id => Json.natural id.number).getD .null)]⟩ :=
    Json.fields?_ofFields (by simp)
  obtain ⟨term, vote⟩ := ballot
  cases vote with
  | none => simp [Ballot.ofJson?, hfields, Json.word?_natural h.term, voteOfJson?]
  | some id =>
      have hid : id.number < wordLimit := h.vote id rfl
      simp [Ballot.ofJson?, hfields, Json.word?_natural h.term, voteOfJson?, Json.serverId?,
        Json.word?_natural hid]

theorem lt_of_voteOfJson? {positional : Bool} {json : Option Json} {id : ServerId}
    (h : voteOfJson? positional json = some (some id)) : id.number < wordLimit := by
  unfold voteOfJson? at h
  split at h
  · split at h <;> cases h
  · cases h
  · obtain ⟨id', hid, h⟩ := Option.map_eq_some_iff.1 h
    exact Option.some.inj h ▸ Json.lt_of_serverId? hid

/-- What is read fits. -/
theorem Ballot.fits_of_ofJson? {json : Json} {ballot : Ballot}
    (h : Ballot.ofJson? json = some ballot) : ballot.Fits := by
  unfold Ballot.ofJson? at h
  split at h
  · obtain ⟨term, hterm, h⟩ := Option.bind_eq_some_iff.1 h
    obtain ⟨vote', hvote, h⟩ := Option.bind_eq_some_iff.1 h
    obtain rfl := Option.some.inj h
    refine ⟨Json.lt_of_word? hterm, fun id hid => ?_⟩
    obtain rfl : vote' = some id := hid
    exact lt_of_voteOfJson? hvote
  · cases h

/-! ## Changes that succeed -/

section

variable {directory : Directory} {name : String}

theorem perform_create (h : directory.get? name ≠ some .directory) :
    ∃ after : Directory, (FileAction.create name).perform directory = .ok after ∧
      ∀ other, after.get? other =
        if other = name then some (.file []) else directory.get? other :=
  ⟨directory.insert name (.file []), by simp only [FileAction.perform],
    fun other => directory.get?_insert name other _⟩

theorem perform_write {before : Bytes} (h : directory.get? name = some (.file before))
    (bytes : Bytes) :
    ∃ after : Directory, (FileAction.write name bytes).perform directory = .ok after ∧
      ∀ other, after.get? other =
        if other = name then some (.file (before ++ bytes)) else directory.get? other :=
  ⟨directory.insert name (.file (before ++ bytes)),
    by simp only [FileAction.perform, h, Node.readBytes],
    fun other => directory.get?_insert name other _⟩

theorem perform_rename {bytes : Bytes} (h : directory.get? name = some (.file bytes))
    {target : String} (htarget : directory.get? target ≠ some .directory) :
    ∃ after : Directory, (FileAction.rename name target).perform directory = .ok after ∧
      ∀ other, after.get? other =
        if other = target then some (.file bytes)
        else if other = name then none
        else directory.get? other :=
  ⟨(directory.erase name).insert target (.file bytes),
    by simp only [FileAction.perform, h, Node.readBytes],
    fun other => by rw [Dictionary.get?_insert, Dictionary.get?_erase]⟩

theorem performAll_cons {action : FileAction} {after : Directory}
    (h : action.perform directory = .ok after) {rest : List FileAction} :
    performAll directory (action :: rest) = performAll after rest := by
  simp only [performAll, h]

theorem removeFile_eq (h : directory.get? name ≠ some .directory) :
    directory.removeFile name = .ok () (directory.erase name) := by
  unfold Directory.removeFile
  split
  · contradiction
  · rfl

end

/-! ## Replacing a file -/

/-- What becomes of a file that is to be replaced. -/
inductive Replaces (directory : Directory) (target temporary : String) (bytes : Bytes) :
    Attempt DiskError Unit Directory → Prop where
  /-- A directory is in the way of the temporary file. -/
  | blocked (htemporary : directory.get? temporary = some .directory) :
      Replaces directory target temporary bytes (.error .isADirectory directory)
  /-- A directory is in the way of the file itself, and the temporary one is left behind. -/
  | leaves (htemporary : directory.get? temporary ≠ some .directory)
      (htarget : directory.get? target = some .directory) (after : Directory)
      (hafter : ∀ name, after.get? name =
        if name = temporary then some (.file bytes) else directory.get? name) :
      Replaces directory target temporary bytes (.error .isADirectory after)
  /-- The temporary file is gone. -/
  | done (htemporary : directory.get? temporary ≠ some .directory)
      (htarget : directory.get? target ≠ some .directory) (after : Directory)
      (hafter : ∀ name, after.get? name =
        if name = target then some (.file bytes)
        else if name = temporary then none
        else directory.get? name) :
      Replaces directory target temporary bytes (.ok () after)

/-- A temporary file can be filled unless a directory is in its way. -/
theorem perform_fill {directory : Directory} {temporary : String} (bytes : Bytes)
    (htemporary : directory.get? temporary ≠ some .directory) :
    ∃ created filled : Directory,
      (FileAction.create temporary).perform directory = .ok created ∧
        (FileAction.write temporary bytes).perform created = .ok filled ∧
          ∀ name, filled.get? name =
            if name = temporary then some (.file bytes) else directory.get? name := by
  obtain ⟨created, hcreate, hcreated⟩ := perform_create htemporary
  obtain ⟨filled, hwrite, hfilled⟩ :=
    perform_write ((hcreated temporary).trans (if_pos rfl)) bytes
  refine ⟨created, filled, hcreate, hwrite, fun name => ?_⟩
  rw [hfilled, hcreated]
  split_ifs <;> rfl

theorem replaces_replaceFile (directory : Directory) {target temporary : String} (bytes : Bytes)
    (hne : target ≠ temporary) :
    Replaces directory target temporary bytes
      (performAll directory (replaceFile target temporary bytes)) := by
  by_cases htemporary : directory.get? temporary = some .directory
  · have hblocked : (FileAction.create temporary).perform directory = .error .isADirectory := by
      simp only [FileAction.perform, htemporary]
    rw [replaceFile, performAll, hblocked]
    exact .blocked htemporary
  obtain ⟨created, filled, hcreate, hwrite, hfilled⟩ := perform_fill bytes htemporary
  have hsource : filled.get? temporary = some (.file bytes) :=
    (hfilled temporary).trans (if_pos rfl)
  have htarget' : filled.get? target = directory.get? target := (hfilled target).trans (if_neg hne)
  rw [replaceFile, performAll_cons hcreate, performAll_cons hwrite, performAll_cons rfl]
  by_cases htarget : directory.get? target = some .directory
  · have hblocked : (FileAction.rename temporary target).perform filled = .error .isADirectory := by
      simp only [FileAction.perform, hsource, htarget', htarget, Node.readBytes]
    rw [performAll, hblocked]
    exact .leaves htemporary htarget filled hfilled
  · obtain ⟨renamed, hrename, hrenamed⟩ := perform_rename hsource (htarget' ▸ htarget)
    rw [performAll_cons hrename, performAll_cons rfl]
    refine .done htemporary htarget renamed fun name => ?_
    rw [hrenamed, hfilled]
    split_ifs <;> rfl

/-- A file can be replaced unless a directory is in the way of it or of the temporary file; the
    temporary file is gone afterwards. -/
theorem performAll_replaceFile {directory : Directory} {target temporary : String} (bytes : Bytes)
    (hne : target ≠ temporary) (htarget : directory.get? target ≠ some .directory)
    (htemporary : directory.get? temporary ≠ some .directory) :
    ∃ after : Directory,
      performAll directory (replaceFile target temporary bytes) = .ok () after ∧
        ∀ name, after.get? name =
          if name = target then some (.file bytes)
          else if name = temporary then none
          else directory.get? name := by
  have hreplaces := replaces_replaceFile directory bytes hne
  generalize performAll directory (replaceFile target temporary bytes) = replaced at hreplaces ⊢
  cases hreplaces with
  | blocked hblocked => exact absurd hblocked htemporary
  | leaves _ hblocked => exact absurd hblocked htarget
  | done _ _ after hafter => exact ⟨after, rfl, hafter⟩

/-! ## Keeping a value -/

/-- The directory keeps a value under a name: a file holds it, or there is no file and the value is
    the one that is then assumed. No directory is in the way of the temporary file. -/
structure Directory.Keeps (directory : Directory) (name temporary : String) (json : Json)
    (assumed : Prop) : Prop where
  file : directory.get? name = some (.file (utf8 json.toIndented)) ∨
    directory.get? name = none ∧ assumed
  temporary : directory.get? temporary ≠ some .directory

namespace Directory.Keeps

variable {directory : Directory} {name temporary : String} {json : Json} {assumed : Prop}

theorem not_directory (h : directory.Keeps name temporary json assumed) :
    directory.get? name ≠ some .directory := by
  obtain hfile | ⟨hnone, -⟩ := h.file
  · simp [hfile]
  · simp [hnone]

/-- Only the two names matter. -/
theorem congr (h : directory.Keeps name temporary json assumed) {directory' : Directory}
    (hname : directory'.get? name = directory.get? name)
    (htemporary : directory'.get? temporary = directory.get? temporary) :
    directory'.Keeps name temporary json assumed :=
  ⟨by rw [hname]; exact h.file, by rw [htemporary]; exact h.temporary⟩

/-- Where no file is, nothing but what is assumed can be kept. -/
theorem erase (h : directory.Keeps name temporary json assumed) (hne : temporary ≠ name)
    (json' : Json) {assumed' : Prop} (hassumed : assumed') :
    Directory.Keeps (directory.erase name) name temporary json' assumed' where
  file := .inr ⟨by simp [Dictionary.get?_erase], hassumed⟩
  temporary := by
    rw [Dictionary.get?_erase_of_ne _ hne]
    exact h.temporary

end Directory.Keeps

namespace FileStore

variable {store : FileStore} {name temporary : String} {json : Json} {assumed : Prop}

/-- Nothing matters to what is read but what the name stands for. -/
theorem read_congr {store' : FileStore}
    (h : store'.directory.get? name = store.directory.get? name) {α : Type} (missing : α)
    (ofJson? : Json → Option α) :
    store'.read name missing ofJson? = store.read name missing ofJson? := by
  unfold read
  rw [h]

theorem not_directory_of_read {α : Type} {missing value : α} {ofJson? : Json → Option α}
    (h : store.read name missing ofJson? = .ok value) :
    store.directory.get? name ≠ some .directory := by
  intro hdirectory
  simp [read, hdirectory, Node.readText, Node.readBytes] at h

/-- What was written is read. -/
theorem read_of_file (hfile : store.directory.get? name = some (.file (utf8 json.toIndented)))
    (hplain : json.Plain) {α : Type} (missing : α) {value : α} {ofJson? : Json → Option α}
    (hvalue : ofJson? json = some value) : store.read name missing ofJson? = .ok value := by
  simp [read, hfile, Node.readText, Node.readBytes, hplain.ofText?_toIndented, hvalue]

/-- What is kept is read. -/
theorem read_eq (h : store.directory.Keeps name temporary json assumed) (hplain : json.Plain)
    {α : Type} {missing value : α} {ofJson? : Json → Option α}
    (hvalue : ofJson? json = some value) (hmissing : assumed → value = missing) :
    store.read name missing ofJson? = .ok value := by
  obtain hfile | ⟨hnone, hassumed⟩ := h.file
  · exact read_of_file hfile hplain missing hvalue
  · simp [read, hnone, hmissing hassumed]

/-- What is read is what is assumed if there is no file, or the value of some JSON in it. -/
theorem exists_json_of_read {α : Type} {missing value : α} {ofJson? : Json → Option α}
    (h : store.read name missing ofJson? = .ok value) :
    value = missing ∨ ∃ json, ofJson? json = some value := by
  unfold read at h
  split at h
  · exact .inl (Except.ok.inj h).symm
  · split at h
    · cases h
    · split at h
      · next text _ value' hvalue =>
        obtain ⟨json, -, hjson⟩ := Option.bind_eq_some_iff.1 hvalue
        exact .inr ⟨json, Except.ok.inj h ▸ hjson⟩
      · cases h

/-- What is written is kept, and all other names are left alone. -/
theorem write_eq (h : store.directory.Keeps name temporary json assumed) (hne : name ≠ temporary)
    (json' : Json) (assumed' : Prop) :
    ∃ after : Directory, store.write name temporary json' = .ok () ⟨after⟩ ∧
      after.Keeps name temporary json' assumed' ∧
      ∀ other, other ≠ name → other ≠ temporary →
        after.get? other = store.directory.get? other := by
  obtain ⟨after, hperform, hafter⟩ :=
    performAll_replaceFile (utf8 json'.toIndented) hne h.not_directory h.temporary
  refine ⟨after, ?_, ⟨.inl ?_, ?_⟩, fun other hother hother' => ?_⟩
  · rw [write, hperform]
    rfl
  · simp [hafter]
  · simp [hafter, hne.symm]
  · simp [hafter, hother, hother']

end FileStore

end Quorum
