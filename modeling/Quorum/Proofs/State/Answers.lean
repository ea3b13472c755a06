import Quorum.State.Durable

set_option autoImplicit false

/-! # What follows from the answers of the disk

Nothing is assumed of the disk here: a call that fails may have changed what is stored, and one that
succeeds may not have. What the state has in memory depends on the answers alone. A ballot is
changed if and only if the disk says that it was saved, and the log has nothing to do with it. On a
disk that never fails, a log takes over a batch just as if there were no disk. -/

namespace Quorum

/-! ## Disks that work -/

section

variable {σ : Type} [Storage σ]

/-- A change that a disk is asked for. -/
inductive DiskChange where
  | saveBallot (ballot : Ballot)
  | appendEntries (entries : List Entry)
  | truncateFrom (start : Nat)

/-- Ask a disk for a change. -/
def DiskChange.make (disk : σ) : DiskChange → Attempt DiskError Unit σ
  | .saveBallot ballot => Storage.saveBallot disk ballot
  | .appendEntries entries => Storage.appendEntries disk entries
  | .truncateFrom start => Storage.truncateFrom disk start

/-- A disk on which every change succeeds, and every one after it. -/
def Works (disk : σ) : Prop :=
  ∀ (earlier : List DiskChange) (change : DiskChange),
    (change.make (earlier.foldl (fun disk change => (change.make disk).state) disk)).result = .ok ()

/-- A disk that works makes every change, and works on. -/
theorem Works.make {disk : σ} (h : Works disk) (change : DiskChange) :
    ∃ after, change.make disk = .ok () after ∧ Works after := by
  have hresult : (change.make disk).result = .ok () := h [] change
  exact ⟨_, congrArg (Attempt.mk · (change.make disk).state) hresult,
    fun earlier => h (change :: earlier)⟩

theorem Works.appendEntries {disk : σ} (h : Works disk) (entries : List Entry) :
    ∃ after, Storage.appendEntries disk entries = .ok () after ∧ Works after :=
  h.make (.appendEntries entries)

theorem Works.truncateFrom {disk : σ} (h : Works disk) (start : Nat) :
    ∃ after, Storage.truncateFrom disk start = .ok () after ∧ Works after :=
  h.make (.truncateFrom start)

theorem Contents.works (disk : Contents) : Works disk := by
  intro earlier change
  cases change <;> rfl

end

namespace DurableState

variable {σ : Type}

/-- Whose state it is, the ballot and the guard of the vote are as they were. -/
structure Retains (s s' : DurableState σ) : Prop where
  id : s'.id = s.id
  ballot : s'.ballot = s.ballot
  votedTerm : s'.votedTerm = s.votedTerm

theorem Retains.refl (s : DurableState σ) : s.Retains s := ⟨rfl, rfl, rfl⟩

theorem retains_disk (s : DurableState σ) (disk : σ) : s.Retains { s with disk } := ⟨rfl, rfl, rfl⟩

/-- A vote that is on the ballot is guarded. -/
def Guarded (s : DurableState σ) : Prop := s.vote.isSome → s.votedTerm = s.term

theorem Guarded.retained {s s' : DurableState σ} (h : s.Guarded) (hretains : s.Retains s') :
    s'.Guarded := by
  intro hvote
  rw [DurableState.vote, hretains.ballot] at hvote
  rw [hretains.votedTerm, DurableState.term, hretains.ballot]
  exact h hvote

/-- A ballot without a vote needs no guard. -/
theorem guarded_of_vote_eq_none {s : DurableState σ} (h : s.vote = none) : s.Guarded := by
  intro hvote
  rw [h] at hvote
  cases hvote

variable [Storage σ]

/-- What is loaded is what the disk answers, with the guard of the vote made up from the ballot. -/
theorem load_cases {id : ServerId} {disk : σ} {s : DurableState σ}
    (h : DurableState.load id disk = .ok s) :
    ∃ ballot entries log, Storage.loadBallot disk = .ok ballot ∧
      Storage.loadLog disk = .ok entries ∧ log.entries = entries ∧
        s = { id, ballot, votedTerm := if ballot.vote.isSome then ballot.term else 0, log, disk,
              unsyncedFrom := none } := by
  unfold DurableState.load at h
  split at h
  · cases h
  · next ballot hballot =>
    split at h
    · cases h
    · next entries hentries =>
      split at h
      · cases h
      · next log hlog =>
        exact ⟨ballot, entries, log, hballot, hentries, (Log.ofEntries_eq_ok_iff ..).1 hlog,
          (Except.ok.inj h).symm⟩

/-- What is loaded belongs to the server that loads it, and its vote is guarded. -/
theorem guarded_of_load {id : ServerId} {disk : σ} {s : DurableState σ}
    (h : DurableState.load id disk = .ok s) : s.id = id ∧ s.Guarded := by
  obtain ⟨ballot, entries, log, -, -, -, rfl⟩ := load_cases h
  exact ⟨rfl, fun hvote => if_pos hvote⟩

/-- After a load, memory and disk do not differ. -/
theorem unsyncedFrom_of_load {id : ServerId} {disk : σ} {s : DurableState σ}
    (h : DurableState.load id disk = .ok s) : s.unsyncedFrom = none := by
  obtain ⟨ballot, entries, log, -, -, -, rfl⟩ := load_cases h
  rfl

theorem disk_of_load {id : ServerId} {disk : σ} {s : DurableState σ}
    (h : DurableState.load id disk = .ok s) : s.disk = disk := by
  obtain ⟨ballot, entries, log, -, -, -, rfl⟩ := load_cases h
  rfl

/-! ## Term and vote -/

theorem saveBallot_cases (s : DurableState σ) (ballot : Ballot) :
    (∃ disk, s.saveBallot ballot = .ok () { s with ballot, disk }) ∨
      ∃ e disk, s.saveBallot ballot = .error (.storage e) { s with disk } := by
  unfold DurableState.saveBallot
  simp only
  split
  · exact Or.inl ⟨_, rfl⟩
  · exact Or.inr ⟨_, _, rfl⟩

/-- The state after the next term was opened. -/
def opened (s : DurableState σ) (disk : σ) : DurableState σ :=
  { s with ballot := ⟨s.term + 1, some s.id⟩, disk, votedTerm := s.term + 1 }

/-- The next term is opened unless there is none or the disk refuses. -/
theorem openTerm_cases (s : DurableState σ) :
    (wordLimit ≤ s.term + 1 ∧ s.openTerm = .error (.illegalState .overflow) s) ∨
      (∃ disk, s.openTerm = .ok (s.term + 1) (s.opened disk)) ∨
        ∃ e disk, s.openTerm = .error (.storage e) { s with disk } := by
  rcases Nat.lt_or_ge (s.term + 1) wordLimit with hlt | hge
  · rw [openTerm_of_lt hlt]
    rcases s.saveBallot_cases ⟨s.term + 1, some s.id⟩ with ⟨disk, hsaved⟩ | ⟨e, disk, hsaved⟩ <;>
      rw [hsaved]
    · exact Or.inr (Or.inl ⟨disk, rfl⟩)
    · exact Or.inr (Or.inr ⟨e, disk, rfl⟩)
  · exact Or.inl ⟨hge, openTerm_of_le hge⟩

/-- Only a newer term is adopted, and only such a term can fail to be. -/
theorem adoptTerm_cases (s : DurableState σ) (term : Nat) :
    (term ≤ s.term ∧ s.adoptTerm term = .ok false s) ∨
      s.term < term ∧
        ((∃ disk, s.adoptTerm term = .ok true { s with ballot := ⟨term, none⟩, disk }) ∨
          ∃ e disk, s.adoptTerm term = .error (.storage e) { s with disk }) := by
  unfold DurableState.adoptTerm
  split
  · next hle => exact Or.inl ⟨hle, rfl⟩
  · next hlt =>
    refine Or.inr ⟨Nat.lt_of_not_le hlt, ?_⟩
    rcases s.saveBallot_cases ⟨term, none⟩ with ⟨disk, hsaved⟩ | ⟨e, disk, hsaved⟩
    · exact Or.inl ⟨disk, by rw [hsaved]; rfl⟩
    · exact Or.inr ⟨e, disk, by rw [hsaved]; rfl⟩

/-- Adopting a term leaves the log as it is. -/
theorem adoptTerm_log (s : DurableState σ) (term : Nat) :
    (s.adoptTerm term).state.log = s.log := by
  rcases s.adoptTerm_cases term with ⟨-, heq⟩ | ⟨-, ⟨disk, heq⟩ | ⟨e, disk, heq⟩⟩ <;>
    rw [heq] <;> rfl

/-- Who has adopted a term has reached it. -/
theorem term_le_of_adoptTerm {s : DurableState σ} {term : Nat} {newer : Bool}
    (h : (s.adoptTerm term).result = .ok newer) : term ≤ (s.adoptTerm term).state.term := by
  rcases s.adoptTerm_cases term with ⟨hle, heq⟩ | ⟨-, ⟨disk, heq⟩ | ⟨e, disk, heq⟩⟩ <;>
    rw [heq] at h ⊢
  · exact hle
  · exact Nat.le_refl term
  · cases h

/-- A vote changes the ballot only in a term in which none was given. -/
theorem grantVote_cases (s : DurableState σ) (term : Nat) (candidate : ServerId)
    (last : Position) :
    (∃ granted, s.grantVote term candidate last = .ok granted s) ∨
      s.votedTerm < s.term ∧
        ((∃ disk, s.grantVote term candidate last =
            .ok true
              { s with ballot := ⟨s.term, some candidate⟩, disk, votedTerm := s.term }) ∨
          ∃ e disk, s.grantVote term candidate last = .error e { s with disk }) := by
  unfold DurableState.grantVote DurableState.giveVote
  split
  · exact Or.inl ⟨_, rfl⟩
  · split
    · exact Or.inl ⟨_, rfl⟩
    · split
      · exact Or.inl ⟨_, rfl⟩
      · next hvoted =>
        split
        · refine Or.inr ⟨Nat.lt_of_not_le hvoted, ?_⟩
          rcases s.saveBallot_cases ⟨s.term, some candidate⟩ with ⟨disk, hsaved⟩ | ⟨e, disk, hsaved⟩
          · exact Or.inl ⟨disk, by rw [hsaved]; rfl⟩
          · exact Or.inr ⟨.storage e, disk, by rw [hsaved]; rfl⟩
        · exact Or.inl ⟨_, rfl⟩

/-! ## The log -/

theorem retains_writeLogFrom (s : DurableState σ) (start stored : Nat) :
    s.Retains (s.writeLogFrom start stored).state := by
  unfold DurableState.writeLogFrom
  simp only
  split <;> exact ⟨rfl, rfl, rfl⟩

theorem retains_append (s : DurableState σ) (batch : List Entry) (prev : Position) :
    s.Retains (s.append batch prev).state := by
  unfold DurableState.append
  split
  · next log _ =>
    rw [Attempt.andThen_answer]
    obtain ⟨hid, hballot, hvoted⟩ := retains_writeLogFrom { s with log } _ s.log.length
    exact ⟨hid, hballot, hvoted⟩
  · exact ⟨rfl, rfl, rfl⟩

theorem retains_appendCommand (s : DurableState σ) (term : Nat) (command : Bytes) :
    s.Retains (s.appendCommand term command).state := by
  unfold DurableState.appendCommand
  split
  · exact Retains.refl s
  · simp only
    rw [Attempt.andThen_answer]
    obtain ⟨hid, hballot, hvoted⟩ :=
      retains_writeLogFrom { s with log := s.log.push term command } _ s.log.length
    exact ⟨hid, hballot, hvoted⟩

/-- A disk that works makes no difference to what is written, wherever it may differ from the log. -/
theorem writeLogFrom_of_works {s : DurableState σ} (h : Works s.disk) (start stored : Nat) :
    ∃ disk, s.writeLogFrom start stored = .ok () { s with disk, unsyncedFrom := none } ∧
      Works disk := by
  unfold DurableState.writeLogFrom
  generalize (s.unsyncedFrom.map (min · start)).getD start = first
  obtain ⟨cut, hcut, hworks⟩ : ∃ cut,
      (if s.unsyncedFrom.isSome || first ≤ stored then Storage.truncateFrom s.disk first
        else .ok () s.disk) = .ok () cut ∧ Works cut := by
    split
    · exact h.truncateFrom first
    · exact ⟨s.disk, rfl, h⟩
  obtain ⟨disk, hwritten, hworks⟩ := hworks.appendEntries (s.log.entriesFrom first)
  refine ⟨disk, ?_, hworks⟩
  simp only [hcut, Attempt.andThen_ok, hwritten]
  rfl

/-- On a disk that works, the log takes over a batch as it does in memory. -/
theorem append_of_works {s : DurableState σ} (h : Works s.disk) (batch : List Entry)
    (prev : Position) :
    ∃ s' : DurableState σ, s.append batch prev = .ok (s.log.append batch prev).1 s' ∧
      s'.log = (s.log.append batch prev).2 ∧ s.Retains s' ∧ Works s'.disk := by
  unfold DurableState.append
  split
  · next lastNew first log happend =>
    obtain ⟨disk, hwritten, hworks⟩ :=
      writeLogFrom_of_works (s := { s with log }) h first s.log.length
    rw [hwritten, happend]
    exact ⟨_, rfl, rfl, ⟨rfl, rfl, rfl⟩, hworks⟩
  · next outcome log _ happend =>
    rw [happend]
    exact ⟨_, rfl, rfl, ⟨rfl, rfl, rfl⟩, h⟩

/-- If the disk may differ from the log in memory, it does so from where the log ends. -/
def EndsAtDoubt (s : DurableState σ) : Prop :=
  ∀ start, s.unsyncedFrom = some start → start = s.log.length + 1

omit [Storage σ] in
theorem endsAtDoubt_of_none {s : DurableState σ} (h : s.unsyncedFrom = none) : s.EndsAtDoubt := by
  intro start hstart
  rw [h] at hstart
  cases hstart

/-- If nothing before `start` is in doubt, a write that fails keeps what comes before `start`. -/
theorem writeLogFrom_cases (s : DurableState σ) {start : Nat} (stored : Nat)
    (hunsynced : ∀ doubtful, s.unsyncedFrom = some doubtful → start ≤ doubtful) :
    (∃ disk, s.writeLogFrom start stored = .ok () { s with disk, unsyncedFrom := none }) ∨
      ∃ e disk, s.writeLogFrom start stored =
        .error (.storage e)
          { s with
            disk
            log := s.log.truncateAfter (start - 1)
            unsyncedFrom := some start } := by
  have hfirst : (s.unsyncedFrom.map (min · start)).getD start = start := by
    cases hdoubtful : s.unsyncedFrom with
    | none => rfl
    | some doubtful => exact Nat.min_eq_right (hunsynced doubtful hdoubtful)
  unfold DurableState.writeLogFrom
  simp only [hfirst]
  split
  · exact Or.inl ⟨_, rfl⟩
  · exact Or.inr ⟨_, _, rfl⟩

/-- A command is put at the end of the log, or the log stays as it was. -/
theorem appendCommand_cases {s : DurableState σ} (h : s.EndsAtDoubt) (term : Nat)
    (command : Bytes) :
    s.appendCommand term command = .ok none s ∨
      (∃ disk, s.appendCommand term command =
        .ok (some (s.log.next term command))
          { s with log := s.log.push term command, disk, unsyncedFrom := none }) ∨
      ∃ e disk, s.appendCommand term command =
        .error (.storage e) { s with disk, unsyncedFrom := some (s.log.length + 1) } := by
  unfold DurableState.appendCommand
  split
  · exact Or.inl rfl
  · refine Or.inr ?_
    have hindex : (s.log.next term command).index = s.log.length + 1 := rfl
    simp only [hindex]
    rcases writeLogFrom_cases ({ s with log := s.log.push term command } : DurableState σ)
      s.log.length (fun doubtful hdoubtful => Nat.le_of_eq (h doubtful hdoubtful).symm) with
      ⟨disk, hwritten⟩ | ⟨e, disk, hwritten⟩ <;> rw [hwritten]
    · exact Or.inl ⟨disk, rfl⟩
    · -- the new entry is taken out again
      have hcut : (s.log.push term command).truncateAfter (s.log.length + 1 - 1) = s.log := by
        refine Log.eq_of_entries_eq ?_
        rw [Log.entries_truncateAfter, Log.entries_push, Nat.add_sub_cancel, Log.length,
          List.take_left]
      refine Or.inr ⟨e, disk, ?_⟩
      rw [hcut]
      rfl

theorem EndsAtDoubt.appendCommand {s : DurableState σ} (h : s.EndsAtDoubt) (term : Nat)
    (command : Bytes) : (s.appendCommand term command).state.EndsAtDoubt := by
  rcases appendCommand_cases h term command with heq | ⟨disk, heq⟩ | ⟨e, disk, heq⟩ <;> rw [heq]
  · exact h
  · exact endsAtDoubt_of_none rfl
  · exact fun start hstart => (Option.some.inj hstart).symm

end DurableState

end Quorum
