import Quorum.Proofs.Log.Append
import Quorum.Proofs.State.Answers
import Quorum.Proofs.Storage.Lawful

set_option autoImplicit false

/-! # Memory and disk

What a server has in memory agrees with what its disk holds, apart from entries that a failed write
has left on the disk behind the end of the log. For every operation on the durable state there is a
list of all that it can come to, and each of these keeps that agreement. -/

namespace Quorum.DurableState

variable {σ : Type} [LawfulStorage σ]

/-- How memory and disk agree. -/
structure Coherent (s : DurableState σ) : Prop where
  ballot : (contents s.disk).ballot = s.ballot
  contiguous : ContiguousFrom 1 (contents s.disk).log
  /-- The disk has the log, and maybe more. -/
  log : s.log.entries <+: (contents s.disk).log
  /-- It has no more if the last write succeeded. -/
  synced : s.unsyncedFrom = none → (contents s.disk).log = s.log.entries
  unsynced : ∀ start, s.unsyncedFrom = some start → start = s.log.length + 1
  votedTerm_le : s.votedTerm ≤ s.term
  votedTerm_eq : s.vote.isSome → s.votedTerm = s.term

/-- What is loaded from a disk is what the disk holds. -/
theorem load_eq {id : ServerId} {disk : σ} {s : DurableState σ}
    (h : DurableState.load id disk = .ok s) :
    s.id = id ∧ s.disk = disk ∧ s.ballot = (contents disk).ballot ∧
      s.log.entries = (contents disk).log ∧ s.Coherent := by
  obtain ⟨ballot, entries, log, hballot, hentries, rfl, rfl⟩ := load_cases h
  have hballot := LawfulStorage.loadBallot_eq disk ballot hballot
  have hlog := LawfulStorage.loadLog_eq disk log.entries hentries
  refine ⟨rfl, rfl, hballot.symm, hlog.symm, ?_⟩
  constructor
  · exact hballot
  · exact hlog ▸ log.contiguous
  · exact hlog ▸ List.prefix_rfl
  · exact fun _ => hlog
  · exact nofun
  · show (if ballot.vote.isSome then ballot.term else 0) ≤ ballot.term
    split <;> omega
  · exact fun hvote => if_pos hvote

omit [LawfulStorage σ] in
/-- What is not on the disk starts out as if nothing had happened. -/
theorem load_fresh [Storage σ] {id : ServerId} {disk : σ} {s : DurableState σ}
    (h : DurableState.load id disk = .ok s) :
    s.unsyncedFrom = none ∧ (s.vote = none → s.votedTerm = 0) := by
  obtain ⟨ballot, entries, log, -, -, -, rfl⟩ := load_cases h
  exact ⟨rfl, fun hvote => if_neg (Option.not_isSome_iff_eq_none.2 hvote)⟩

/-- A disk that can be read is loaded again, with the same ballot and nothing missing. -/
theorem Coherent.exists_load {s : DurableState σ} (h : s.Coherent) (hreadable : Readable s.disk)
    (id : ServerId) :
    ∃ loaded, DurableState.load id s.disk = .ok loaded ∧ loaded.ballot = s.ballot ∧
      s.log.entries <+: loaded.log.entries := by
  obtain ⟨⟨ballot, hballot⟩, ⟨entries, hentries⟩⟩ := hreadable
  obtain rfl := LawfulStorage.loadBallot_eq s.disk ballot hballot
  obtain rfl := LawfulStorage.loadLog_eq s.disk entries hentries
  have hof := (Log.ofEntries_eq_ok_iff _ ⟨(contents s.disk).log, h.contiguous⟩).2 rfl
  unfold DurableState.load
  rw [hballot, hentries]
  simp only [hof]
  exact ⟨_, rfl, h.ballot, h.log⟩

omit [LawfulStorage σ] in
/-- Only a disk that can be read is loaded. -/
theorem readable_of_load [Storage σ] {id : ServerId} {disk : σ} {s : DurableState σ}
    (h : DurableState.load id disk = .ok s) : Readable disk := by
  obtain ⟨ballot, entries, log, hballot, hentries, -, -⟩ := load_cases h
  exact ⟨⟨ballot, hballot⟩, ⟨entries, hentries⟩⟩

/-! ## Term and vote -/

/-- What becomes of a ballot that is to be saved. -/
inductive Saves (s : DurableState σ) (ballot : Ballot) :
    Attempt EngineError Unit (DurableState σ) → Prop where
  | done (disk : σ) (hdisk : contents disk = (contents s.disk).saveBallot ballot) :
      Saves s ballot (.ok () { s with ballot, disk })
  | fails (e : DiskError) (disk : σ) (hdisk : contents disk = contents s.disk) :
      Saves s ballot (.error (.storage e) { s with disk })

theorem saves_saveBallot (s : DurableState σ) (ballot : Ballot) :
    s.Saves ballot (s.saveBallot ballot) := by
  have hchanges := LawfulStorage.saveBallot_changes s.disk ballot
  unfold DurableState.saveBallot
  generalize Storage.saveBallot s.disk ballot = saved at hchanges ⊢
  obtain ⟨_ | e, disk⟩ := saved
  · exact .fails _ disk hchanges
  · exact .done disk hchanges

/-- What becomes of a term that is to be opened. -/
inductive Opens (s : DurableState σ) : Attempt EngineError Nat (DurableState σ) → Prop where
  | done (disk : σ) (hdisk : contents disk = (contents s.disk).saveBallot ⟨s.term + 1, some s.id⟩) :
      Opens s
        (.ok (s.term + 1)
          { s with ballot := ⟨s.term + 1, some s.id⟩, disk, votedTerm := s.term + 1 })
  | fails (e : EngineError) (disk : σ) (hdisk : contents disk = contents s.disk) :
      Opens s (.error e { s with disk })

theorem opens_openTerm (s : DurableState σ) : s.Opens s.openTerm := by
  rcases Nat.lt_or_ge (s.term + 1) wordLimit with hlt | hge
  · have hsaves := s.saves_saveBallot ⟨s.term + 1, some s.id⟩
    rw [openTerm_of_lt hlt]
    generalize s.saveBallot ⟨s.term + 1, some s.id⟩ = saved at hsaves ⊢
    cases hsaves with
    | done disk hdisk => exact .done disk hdisk
    | fails e disk hdisk => exact .fails _ disk hdisk
  · rw [openTerm_of_le hge]
    exact .fails _ s.disk rfl

/-- What becomes of a term that is to be moved to without a vote. -/
inductive Resets (s : DurableState σ) (term : Nat) :
    Attempt EngineError Unit (DurableState σ) → Prop where
  | done (disk : σ) (hterm : s.term ≤ term)
      (hdisk : contents disk = (contents s.disk).saveBallot ⟨term, none⟩) :
      Resets s term (.ok () { s with ballot := ⟨term, none⟩, disk })
  | fails (e : EngineError) (disk : σ) (hdisk : contents disk = contents s.disk) :
      Resets s term (.error e { s with disk })

theorem resets_resetTerm (s : DurableState σ) (term : Nat) :
    s.Resets term (s.resetTerm term) := by
  unfold DurableState.resetTerm
  split
  · exact .fails _ s.disk rfl
  · next hterm =>
    have hsaves := s.saves_saveBallot ⟨term, none⟩
    generalize s.saveBallot ⟨term, none⟩ = saved at hsaves ⊢
    cases hsaves with
    | done disk hdisk => exact .done disk (by omega) hdisk
    | fails e disk hdisk => exact .fails _ disk hdisk

/-- What becomes of a term that is to be adopted. -/
inductive Adopts (s : DurableState σ) (term : Nat) :
    Attempt EngineError Bool (DurableState σ) → Prop where
  | stays (hterm : term ≤ s.term) : Adopts s term (.ok false s)
  | done (disk : σ) (hterm : s.term < term)
      (hdisk : contents disk = (contents s.disk).saveBallot ⟨term, none⟩) :
      Adopts s term (.ok true { s with ballot := ⟨term, none⟩, disk })
  | fails (e : EngineError) (disk : σ) (hterm : s.term < term)
      (hdisk : contents disk = contents s.disk) : Adopts s term (.error e { s with disk })

theorem adopts_adoptTerm (s : DurableState σ) (term : Nat) :
    s.Adopts term (s.adoptTerm term) := by
  unfold DurableState.adoptTerm
  split
  · next hterm => exact .stays hterm
  · next hterm =>
    have hsaves := s.saves_saveBallot ⟨term, none⟩
    generalize s.saveBallot ⟨term, none⟩ = saved at hsaves ⊢
    cases hsaves with
    | done disk hdisk => exact .done disk (by omega) hdisk
    | fails e disk hdisk => exact .fails _ disk (by omega) hdisk

/-- What becomes of a vote that is to be given. -/
inductive Gives (s : DurableState σ) (candidate : ServerId) :
    Attempt EngineError Unit (DurableState σ) → Prop where
  | done (disk : σ) (hvoted : s.votedTerm < s.term)
      (hdisk : contents disk = (contents s.disk).saveBallot ⟨s.term, some candidate⟩) :
      Gives s candidate
        (.ok () { s with ballot := ⟨s.term, some candidate⟩, disk, votedTerm := s.term })
  | fails (e : EngineError) (disk : σ) (hdisk : contents disk = contents s.disk) :
      Gives s candidate (.error e { s with disk })

theorem gives_giveVote (s : DurableState σ) (candidate : ServerId) :
    s.Gives candidate (s.giveVote candidate) := by
  unfold DurableState.giveVote
  split
  · exact .fails _ s.disk rfl
  · next hvoted =>
    have hsaves := s.saves_saveBallot ⟨s.term, some candidate⟩
    generalize s.saveBallot ⟨s.term, some candidate⟩ = saved at hsaves ⊢
    cases hsaves with
    | done disk hdisk => exact .done disk (by omega) hdisk
    | fails e disk hdisk => exact .fails _ disk hdisk

/-- What becomes of a candidate's request for the vote. -/
inductive Grants (s : DurableState σ) (term : Nat) (candidate : ServerId) (last : Position) :
    Attempt EngineError Bool (DurableState σ) → Prop where
  | refuses : Grants s term candidate last (.ok false s)
  /-- The candidate has the vote already. -/
  | repeats (hterm : term = s.term) (hvote : s.vote = some candidate) :
      Grants s term candidate last (.ok true s)
  | done (disk : σ) (hterm : term = s.term) (hvoted : s.votedTerm < s.term)
      (hlast : last.AtLeast s.log.last)
      (hdisk : contents disk = (contents s.disk).saveBallot ⟨s.term, some candidate⟩) :
      Grants s term candidate last
        (.ok true { s with ballot := ⟨s.term, some candidate⟩, disk, votedTerm := s.term })
  | fails (e : EngineError) (disk : σ) (hdisk : contents disk = contents s.disk) :
      Grants s term candidate last (.error e { s with disk })

theorem grants_grantVote (s : DurableState σ) (term : Nat) (candidate : ServerId)
    (last : Position) : s.Grants term candidate last (s.grantVote term candidate last) := by
  unfold DurableState.grantVote
  split
  · exact .refuses
  · next hterm =>
    split
    · next hvote => exact .repeats (by omega) hvote
    · split
      · exact .refuses
      · split
        · next hlast =>
          have hgives := s.gives_giveVote candidate
          generalize s.giveVote candidate = given at hgives ⊢
          cases hgives with
          | done disk hvoted hdisk => exact .done disk (by omega) hvoted hlast hdisk
          | fails e disk hdisk => exact .fails _ disk hdisk
        · exact .refuses

/-- Memory and disk agree on a ballot that was saved. -/
theorem Coherent.withBallot {s : DurableState σ} (h : s.Coherent) (ballot : Ballot)
    (votedTerm : Nat) {disk : σ} (hdisk : contents disk = (contents s.disk).saveBallot ballot)
    (hvoted_le : votedTerm ≤ ballot.term) (hvoted : ballot.vote.isSome → votedTerm = ballot.term) :
    ({ s with ballot, votedTerm, disk } : DurableState σ).Coherent := by
  have hlog : (contents disk).log = (contents s.disk).log := by rw [hdisk]; rfl
  constructor
  · show (contents disk).ballot = ballot
    rw [hdisk]; rfl
  · rw [hlog]; exact h.contiguous
  · rw [hlog]; exact h.log
  · rw [hlog]; exact h.synced
  · exact h.unsynced
  · exact hvoted_le
  · exact hvoted

/-- A change that has failed leaves memory and disk in agreement. -/
theorem Coherent.withDisk {s : DurableState σ} (h : s.Coherent) {disk : σ}
    (hdisk : contents disk = contents s.disk) : ({ s with disk } : DurableState σ).Coherent := by
  obtain ⟨hballot, hcontiguous, hlog, hsynced, hunsynced, hle, heq⟩ := h
  constructor <;> simp only [hdisk] <;> assumption

/-! ## The log -/

omit [LawfulStorage σ] in
/-- Whoever takes over a batch keeps term and vote. -/
theorem append_ballot [Storage σ] (s : DurableState σ) (batch : List Entry) (prev : Position) :
    (s.append batch prev).state.ballot = s.ballot := by
  have hwrite : ∀ (s : DurableState σ) (start stored : Nat),
      (s.writeLogFrom start stored).state.ballot = s.ballot := by
    intro s start stored
    unfold DurableState.writeLogFrom
    simp only
    split <;> rfl
  unfold DurableState.append
  split
  · next lastNew first log _ =>
    rw [Attempt.andThen_answer]
    exact hwrite { s with log } first s.log.length
  · rfl

/-- Entries before an index are those at the beginning. -/
theorem filter_index_lt {entries : List Entry} {first : Nat} (h : ContiguousFrom first entries)
    (count : Nat) : entries.filter (·.index < first + count) = entries.take count := by
  induction entries generalizing first count with
  | nil => simp
  | cons entry rest ih =>
    obtain ⟨hindex, hrest⟩ := (contiguousFrom_cons ..).1 h
    cases count with
    | zero =>
      have hnone := ih hrest 0
      rw [List.take_zero] at hnone ⊢
      rw [List.filter_cons_of_neg (by simp [hindex])]
      refine List.filter_eq_nil_iff.2 fun other hother => ?_
      have := List.filter_eq_nil_iff.1 hnone other hother
      simp only [decide_eq_true_eq] at this ⊢
      omega
    | succ count =>
      have hsome := ih hrest count
      rw [Nat.add_assoc, Nat.add_comm 1] at hsome
      rw [List.filter_cons_of_pos (by simp [hindex]), List.take_succ_cons, hsome]

/-- Replacing what the disk holds behind its first `common` entries either succeeds, or leaves the
    disk as it was or cut back to these. -/
theorem replaceTail_changes {s : DurableState σ} (h : s.Coherent) (tail : List Entry)
    {common : Nat} (hcommon : common ≤ s.log.length) (replaces : Bool)
    (hreplaces : replaces = false → s.unsyncedFrom = none ∧ common = s.log.length) :
    let kept := if replaces then Storage.truncateFrom s.disk (common + 1) else .ok () s.disk
    let written := kept.andThen fun _ disk => Storage.appendEntries disk tail
    let cut : Contents := { contents s.disk with log := s.log.entries.take common }
    match written.result with
    | .ok () => contents written.state = cut.appendEntries tail
    | .error _ => contents written.state = contents s.disk ∨ contents written.state = cut := by
  intro kept written cut
  have hkeeps : (contents s.disk).log.take common = s.log.entries.take common := by
    obtain ⟨rest, hrest⟩ := h.log
    rw [← hrest, List.take_append_of_le_length hcommon]
  -- what is appended goes to a disk that holds nothing behind
  have happend : ∀ disk : σ, contents disk = cut →
      match (Storage.appendEntries disk tail).result with
      | .ok () => contents (Storage.appendEntries disk tail).state = cut.appendEntries tail
      | .error _ => contents (Storage.appendEntries disk tail).state = contents s.disk ∨
          contents (Storage.appendEntries disk tail).state = cut := by
    intro disk hdisk
    have hchanges := LawfulStorage.appendEntries_changes disk tail
    rw [hdisk] at hchanges
    generalize Storage.appendEntries disk tail = call at hchanges ⊢
    obtain ⟨_ | _, after⟩ := call
    · exact Or.inr hchanges
    · exact hchanges
  cases replaces with
  | false =>
    obtain ⟨hsynced, rfl⟩ := hreplaces rfl
    refine happend s.disk ?_
    show contents s.disk = { contents s.disk with log := s.log.entries.take s.log.entries.length }
    rw [List.take_length, ← h.synced hsynced]
  | true =>
    -- the disk is cut back first, and only then appended to
    have hcut := LawfulStorage.truncateFrom_changes s.disk (common + 1)
    have hfilter := filter_index_lt h.contiguous common
    rw [Nat.add_comm, hkeeps] at hfilter
    rw [Contents.truncateFrom, hfilter] at hcut
    simp only [kept, written, if_true]
    generalize Storage.truncateFrom s.disk (common + 1) = call at hcut ⊢
    obtain ⟨_ | _, disk⟩ := call
    · exact Or.inl hcut
    · exact happend disk hcut

/-- What becomes of a log that is to be written, when only the first `common` entries of it are on
    the disk for certain. -/
inductive WritesLog (s : DurableState σ) (log : Log) (common : Nat) :
    Attempt EngineError Unit (DurableState σ) → Prop where
  | done (disk : σ) (hdisk : contents disk = { contents s.disk with log := log.entries }) :
      WritesLog s log common (.ok () { s with log, disk, unsyncedFrom := none })
  /-- The log is cut back, and so may be the disk. -/
  | fails (e : DiskError) (disk : σ)
      (hdisk : contents disk = contents s.disk ∨
        contents disk = { contents s.disk with log := s.log.entries.take common }) :
      WritesLog s log common
        (.error (.storage e)
          { s with log := log.truncateAfter common, disk, unsyncedFrom := some (common + 1) })

theorem writesLog_writeLogFrom {s : DurableState σ} (h : s.Coherent) {log : Log} {common : Nat}
    (hcommon : common ≤ s.log.length) (htake : log.entries.take common = s.log.entries.take common) :
    s.WritesLog log common
      (({ s with log } : DurableState σ).writeLogFrom (common + 1) s.log.length) := by
  -- nothing before the new entries is in doubt
  have hfirst : (s.unsyncedFrom.map (min · (common + 1))).getD (common + 1) = common + 1 := by
    cases hunsynced : s.unsyncedFrom with
    | none => rfl
    | some start =>
      have := h.unsynced start hunsynced
      show min start (common + 1) = common + 1
      omega
  have hwrites := replaceTail_changes h (log.entriesFrom (common + 1)) hcommon
    (s.unsyncedFrom.isSome || common + 1 ≤ s.log.length) (by
      intro hnot
      rw [Bool.or_eq_false_iff, Option.isSome_eq_false_iff, Option.isNone_iff_eq_none,
        decide_eq_false_iff_not] at hnot
      exact ⟨hnot.1, by omega⟩)
  unfold DurableState.writeLogFrom
  simp only [hfirst]
  simp only at hwrites
  generalize Attempt.andThen _ _ = written at hwrites ⊢
  obtain ⟨e | _, disk⟩ := written
  · exact .fails e disk hwrites
  · refine .done disk (hwrites.trans ?_)
    unfold Contents.appendEntries
    rw [← htake, Log.entriesFrom, Nat.add_sub_cancel, List.take_append_drop]

/-- Memory and disk agree on a log that was written, or that was cut back as it could not be. -/
theorem WritesLog.coherent {s : DurableState σ} (h : s.Coherent) {log : Log} {common : Nat}
    (hlength : common ≤ log.length)
    (htake : log.entries.take common = s.log.entries.take common)
    {a : Attempt EngineError Unit (DurableState σ)} (hwrites : s.WritesLog log common a) :
    a.state.Coherent := by
  cases hwrites with
  | done disk hdisk =>
    constructor
    · show (contents disk).ballot = s.ballot
      rw [hdisk]
      exact h.ballot
    · show ContiguousFrom 1 (contents disk).log
      rw [hdisk]
      exact log.contiguous
    · show log.entries <+: (contents disk).log
      rewrite [hdisk]
      exact List.prefix_rfl
    · intro _
      show (contents disk).log = log.entries
      rw [hdisk]
    · intro start hstart
      cases hstart
    · exact h.votedTerm_le
    · exact h.votedTerm_eq
  | fails e disk hdisk =>
    -- memory is cut back at once, the disk perhaps only at the next write
    have hcut : (log.truncateAfter common).entries = s.log.entries.take common := htake
    have hlog : (contents disk).log = (contents s.disk).log ∨
        (contents disk).log = s.log.entries.take common :=
      hdisk.imp (congrArg Contents.log) (congrArg Contents.log)
    constructor
    · show (contents disk).ballot = s.ballot
      rcases hdisk with hdisk | hdisk <;> rw [hdisk] <;> exact h.ballot
    · show ContiguousFrom 1 (contents disk).log
      rcases hlog with hlog | hlog <;> rw [hlog]
      · exact h.contiguous
      · exact s.log.contiguous.take common
    · show (log.truncateAfter common).entries <+: (contents disk).log
      rw [hcut]
      rcases hlog with hlog | hlog
      · rw [hlog]
        exact (List.take_prefix ..).trans h.log
      · rewrite [hlog]
        exact List.prefix_rfl
    · intro hsynced
      cases hsynced
    · intro start hstart
      obtain rfl : common + 1 = start := Option.some.inj hstart
      show common + 1 = (log.truncateAfter common).length + 1
      rw [Log.length, Log.entries_truncateAfter, List.length_take_of_le hlength]
    · exact h.votedTerm_le
    · exact h.votedTerm_eq

/-- What becomes of a log that is given a batch. -/
inductive Appends (s : DurableState σ) (batch : List Entry) (prev : Position) :
    Attempt EngineError AppendOutcome (DurableState σ) → Prop where
  | refuses : Appends s batch prev (.ok .rejected s)
  | has (last : Nat) (hsplices : s.log.Splices batch prev (.accepted last none) s.log) :
      Appends s batch prev (.ok (.accepted last none) s)
  | done (last common : Nat) (log : Log) (disk : σ)
      (hsplices : s.log.Splices batch prev (.accepted last (some (common + 1))) log)
      (hdisk : contents disk = { contents s.disk with log := log.entries }) :
      Appends s batch prev
        (.ok (.accepted last (some (common + 1))) { s with log, disk, unsyncedFrom := none })
  /-- What is left of the log is what it has in common with the one that was to be written. -/
  | fails (e : DiskError) (last common : Nat) (log : Log) (disk : σ)
      (hsplices : s.log.Splices batch prev (.accepted last (some (common + 1))) log)
      (hdisk : contents disk = contents s.disk ∨
        contents disk = { contents s.disk with log := s.log.entries.take common }) :
      Appends s batch prev
        (.error (.storage e)
          { s with log := log.truncateAfter common, disk, unsyncedFrom := some (common + 1) })

theorem appends_append {s : DurableState σ} (h : s.Coherent) (batch : List Entry)
    (prev : Position) :
    s.Appends batch prev (s.append batch prev) ∧ (s.append batch prev).state.Coherent := by
  have hsplices := s.log.append_splices batch prev
  unfold DurableState.append
  generalize s.log.append batch prev = taken at hsplices ⊢
  obtain ⟨outcome, log⟩ := taken
  cases hsplices with
  | refuses => exact ⟨.refuses, h⟩
  | has hprev hbatch hall => exact ⟨.has _ (.has hprev hbatch hall), h⟩
  | changes hprev hbatch hlacks hreach hlog =>
    have hsplices := Log.Splices.changes hprev hbatch hlacks hreach hlog
    obtain ⟨hcommon, hlength, htake⟩ := hsplices.keeps
    have hwrites := writesLog_writeLogFrom h hcommon htake
    have hcoherent := hwrites.coherent h hlength htake
    simp only
    generalize ({ s with log } : DurableState σ).writeLogFrom _ s.log.length = written
      at hwrites hcoherent ⊢
    cases hwrites with
    | done disk hdisk => exact ⟨.done _ _ log disk hsplices hdisk, hcoherent⟩
    | fails e disk hdisk => exact ⟨.fails e _ _ log disk hsplices hdisk, hcoherent⟩

/-- A batch that was accepted is on the disk, also if it did not have to be written. -/
theorem Coherent.stored_of_accepted {s : DurableState σ} (h : s.Coherent) {batch : List Entry}
    {prev : Position} {last : Nat} {first : Option Nat}
    (hok : (s.append batch prev).result = .ok (.accepted last first)) :
    last = prev.index + batch.length ∧
      ∃ stored : Log, stored.entries = (contents (s.append batch prev).state.disk).log ∧
        stored.Covers batch prev := by
  obtain ⟨happends, hcoherent⟩ := appends_append h batch prev
  generalize s.append batch prev = appended at happends hcoherent hok ⊢
  have hcovers : last = prev.index + batch.length ∧ appended.state.log.Covers batch prev := by
    cases happends with
    | refuses => cases hok
    | has _ hsplices => cases hok; exact hsplices.covers
    | done _ _ _ _ hsplices _ => cases hok; exact hsplices.covers
    | fails => cases hok
  exact ⟨hcovers.1, ⟨_, hcoherent.contiguous⟩, rfl, Log.Covers.of_prefix hcovers.2 hcoherent.log⟩

/-- What becomes of a log that is sent the end of another one. -/
inductive TakesOver (s : DurableState σ) (sent : List Entry) :
    Attempt EngineError AppendOutcome (DurableState σ) → Prop where
  | refuses : TakesOver s sent (.ok .rejected s)
  | has (hsent : sent <+: s.log.entries) : TakesOver s sent (.ok (.accepted sent.length none) s)
  | done (log : Log) (disk : σ) (first : Nat) (hsent : ¬ sent <+: s.log.entries)
      (hlog : log.entries = sent) (hdisk : contents disk = { contents s.disk with log := sent }) :
      TakesOver s sent
        (.ok (.accepted sent.length (some first)) { s with log, disk, unsyncedFrom := none })
  /-- What is left of the log is what it has in common with the other one. -/
  | fails (e : DiskError) (log : Log) (disk : σ) (common : Nat) (hsent : ¬ sent <+: s.log.entries)
      (hlog : log.entries = s.log.entries.take common)
      (hlongest : ∀ part, part <+: s.log.entries → part <+: sent → part.length ≤ common)
      (hdisk : contents disk = contents s.disk ∨
        contents disk = { contents s.disk with log := s.log.entries.take common }) :
      TakesOver s sent
        (.error (.storage e) { s with log, disk, unsyncedFrom := some (common + 1) })

theorem takesOver_append {s : DurableState σ} (h : s.Coherent) {before batch : List Entry}
    {prev : Position} (hbefore : before.length = prev.index) (hprev : lastTerm before = prev.term)
    (hmatching : Matching s.log.entries (before ++ batch)) :
    s.TakesOver (before ++ batch) (s.append batch prev) ∧ (s.append batch prev).state.Coherent := by
  obtain ⟨happends, hcoherent⟩ := appends_append h batch prev
  refine ⟨?_, hcoherent⟩
  generalize s.append batch prev = appended at happends ⊢
  cases happends with
  | refuses => exact .refuses
  | has last hsplices =>
    cases hsplices.takes hbefore hprev hmatching with
    | has hsent => exact .has hsent
  | done last common log disk hsplices hdisk =>
    cases hsplices.takes hbefore hprev hmatching with
    | changes hsent hlog => exact .done log disk _ hsent hlog (hlog ▸ hdisk)
  | fails e last common log disk hsplices hdisk =>
    cases hsplices.takes hbefore hprev hmatching with
    | changes hsent _ _ _ _ hlongest =>
      exact .fails e _ disk common hsent hsplices.keeps.2.2 hlongest hdisk

/-- What becomes of a command that is to be put at the end of the log. -/
inductive PutsLast (s : DurableState σ) (term : Nat) (command : Bytes) :
    Attempt EngineError (Option Entry) (DurableState σ) → Prop where
  | refuses (hterm : s.term ≠ term) : PutsLast s term command (.ok none s)
  | done (disk : σ) (hterm : s.term = term)
      (hdisk : contents disk =
        { contents s.disk with log := s.log.entries ++ [s.log.next term command] }) :
      PutsLast s term command
        (.ok (some (s.log.next term command))
          { s with log := s.log.push term command, disk, unsyncedFrom := none })
  | fails (e : DiskError) (disk : σ) (unsyncedFrom : Option Nat)
      (hdisk : contents disk = contents s.disk ∨
        contents disk = { contents s.disk with log := s.log.entries }) :
      PutsLast s term command (.error (.storage e) { s with disk, unsyncedFrom })

theorem putsLast_appendCommand {s : DurableState σ} (h : s.Coherent) (term : Nat)
    (command : Bytes) :
    s.PutsLast term command (s.appendCommand term command) ∧
      (s.appendCommand term command).state.Coherent := by
  unfold DurableState.appendCommand
  split
  · next hterm => exact ⟨.refuses hterm, h⟩
  · next hterm =>
    have htake : (s.log.push term command).entries.take s.log.length =
        s.log.entries.take s.log.length := by
      rw [Log.entries_push]
      exact List.take_append_of_le_length (Nat.le_refl _)
    have hwrites := writesLog_writeLogFrom h (Nat.le_refl _) htake
    have hcoherent := hwrites.coherent h (by simp [Log.length]) htake
    have hindex : (s.log.next term command).index = s.log.length + 1 := rfl
    simp only [hindex]
    generalize ({ s with log := s.log.push term command } : DurableState σ).writeLogFrom
      (s.log.length + 1) s.log.length = written at hwrites hcoherent ⊢
    cases hwrites with
    | done disk hdisk => exact ⟨.done disk (by simpa using hterm) hdisk, hcoherent⟩
    | fails e disk hdisk =>
      -- the new entry is taken out again
      have hcut : (s.log.push term command).truncateAfter s.log.length = s.log := by
        refine Log.eq_of_entries_eq ?_
        rw [Log.entries_truncateAfter, htake, Log.length, List.take_length]
      rw [hcut] at hcoherent ⊢
      rw [Log.length, List.take_length] at hdisk
      exact ⟨.fails e disk _ hdisk, hcoherent⟩

end Quorum.DurableState
