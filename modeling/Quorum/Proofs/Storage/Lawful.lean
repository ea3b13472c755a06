import Quorum.Storage.Faulty

set_option autoImplicit false

/-! # Disks that keep what they are given

All that the engine relies on in a disk: a call either does what it says, or it fails and changes
nothing. When calls fail is up to the disk. -/

namespace Quorum

/-- A call to a disk either fails, and the contents stay as they were, or changes them from `before`
    to `after`. -/
def Attempt.Changes {σ : Type} (contents : σ → Contents) (before after : Contents)
    (call : Attempt DiskError Unit σ) : Prop :=
  match call.result with
  | .ok () => contents call.state = after
  | .error _ => contents call.state = before

/-- A disk whose calls do what they say unless they fail. -/
class LawfulStorage (σ : Type) extends Storage σ where
  /-- What the disk holds. -/
  contents : σ → Contents
  saveBallot_changes : ∀ (disk : σ) (ballot : Ballot),
    (saveBallot disk ballot).Changes contents (contents disk) ((contents disk).saveBallot ballot)
  appendEntries_changes : ∀ (disk : σ) (entries : List Entry),
    (appendEntries disk entries).Changes contents (contents disk)
      ((contents disk).appendEntries entries)
  truncateFrom_changes : ∀ (disk : σ) (start : Nat),
    (truncateFrom disk start).Changes contents (contents disk) ((contents disk).truncateFrom start)
  loadBallot_eq : ∀ (disk : σ) (ballot : Ballot),
    loadBallot disk = .ok ballot → (contents disk).ballot = ballot
  loadLog_eq : ∀ (disk : σ) (entries : List Entry),
    loadLog disk = .ok entries → (contents disk).log = entries

export LawfulStorage (contents)

instance : LawfulStorage Contents where
  contents disk := disk
  saveBallot_changes _ _ := rfl
  appendEntries_changes _ _ := rfl
  truncateFrom_changes _ _ := rfl
  loadBallot_eq _ _ h := Except.ok.inj h
  loadLog_eq _ _ h := Except.ok.inj h

/-! ## Failing disks -/

/-- A disk on which it is laid down in advance which of the next changes fail. After these, all of
    them succeed. -/
structure Fated (σ : Type) where
  disk : σ
  /-- For each of the next changes, whether it fails. -/
  fails : List Bool
  deriving Repr

/-- Change a disk, unless this change is to fail. -/
def Fated.change {σ : Type} (s : Fated σ) (call : σ → Attempt DiskError Unit σ) :
    Attempt DiskError Unit (Fated σ) :=
  if s.fails.headD false then .error diskFull { s with fails := s.fails.tail }
  else (call s.disk).within fun disk => ⟨disk, s.fails.tail⟩

theorem Fated.changes {σ : Type} [LawfulStorage σ] (s : Fated σ)
    (call : σ → Attempt DiskError Unit σ) {after : Contents}
    (hcall : (call s.disk).Changes contents (contents s.disk) after) :
    (s.change call).Changes (fun s => contents s.disk) (contents s.disk) after := by
  unfold Fated.change
  split
  · exact rfl
  · exact hcall

instance {σ : Type} [LawfulStorage σ] : LawfulStorage (Fated σ) where
  saveBallot s ballot := s.change (Storage.saveBallot · ballot)
  loadBallot s := Storage.loadBallot s.disk
  appendEntries s entries := s.change (Storage.appendEntries · entries)
  loadLog s := Storage.loadLog s.disk
  truncateFrom s start := s.change (Storage.truncateFrom · start)
  contents s := contents s.disk
  saveBallot_changes s ballot := s.changes _ (LawfulStorage.saveBallot_changes s.disk ballot)
  appendEntries_changes s entries :=
    s.changes _ (LawfulStorage.appendEntries_changes s.disk entries)
  truncateFrom_changes s start := s.changes _ (LawfulStorage.truncateFrom_changes s.disk start)
  loadBallot_eq s := LawfulStorage.loadBallot_eq s.disk
  loadLog_eq s := LawfulStorage.loadLog_eq s.disk

/-! ## Disks that are watched -/

/-- A disk with the number of its changes that have failed. -/
structure Watched (σ : Type) where
  disk : σ
  failures : Nat
  deriving Repr

/-- Change a disk, and count the change if it fails. -/
def Watched.change {σ : Type} (s : Watched σ) (call : σ → Attempt DiskError Unit σ) :
    Attempt DiskError Unit (Watched σ) :=
  match call s.disk with
  | ⟨.ok (), disk⟩ => .ok () ⟨disk, s.failures⟩
  | ⟨.error e, disk⟩ => .error e ⟨disk, s.failures + 1⟩

theorem Watched.changes {σ : Type} [LawfulStorage σ] (s : Watched σ)
    (call : σ → Attempt DiskError Unit σ) {after : Contents}
    (hcall : (call s.disk).Changes contents (contents s.disk) after) :
    (s.change call).Changes (fun s => contents s.disk) (contents s.disk) after := by
  unfold Watched.change
  generalize call s.disk = changed at hcall ⊢
  obtain ⟨_ | _, disk⟩ := changed <;> exact hcall

instance {σ : Type} [LawfulStorage σ] : LawfulStorage (Watched σ) where
  saveBallot s ballot := s.change (Storage.saveBallot · ballot)
  loadBallot s := Storage.loadBallot s.disk
  appendEntries s entries := s.change (Storage.appendEntries · entries)
  loadLog s := Storage.loadLog s.disk
  truncateFrom s start := s.change (Storage.truncateFrom · start)
  contents s := contents s.disk
  saveBallot_changes s ballot := s.changes _ (LawfulStorage.saveBallot_changes s.disk ballot)
  appendEntries_changes s entries :=
    s.changes _ (LawfulStorage.appendEntries_changes s.disk entries)
  truncateFrom_changes s start := s.changes _ (LawfulStorage.truncateFrom_changes s.disk start)
  loadBallot_eq s := LawfulStorage.loadBallot_eq s.disk
  loadLog_eq s := LawfulStorage.loadLog_eq s.disk

/-- An attempt answers with an error if and only if the count has gone up, which was at `before`. -/
def Attempt.Tells {ε α σ : Type} (before : Nat) (a : Attempt ε α (Watched σ)) : Prop :=
  match a.result with
  | .ok _ => a.state.failures = before
  | .error _ => before < a.state.failures

theorem Watched.tells_change {σ : Type} (s : Watched σ) (call : σ → Attempt DiskError Unit σ) :
    (s.change call).Tells s.failures := by
  unfold Watched.change
  rcases call s.disk with ⟨_ | _, disk⟩
  · exact Nat.lt_succ_self _
  · exact rfl

theorem Attempt.Tells.lt {ε α σ : Type} {before : Nat} {a : Attempt ε α (Watched σ)}
    (h : a.Tells before) {e : ε} (herror : a.result = .error e) : before < a.state.failures := by
  unfold Attempt.Tells at h
  rwa [herror] at h

theorem Attempt.Tells.le {ε α σ : Type} {before : Nat} {a : Attempt ε α (Watched σ)}
    (h : a.Tells before) : before ≤ a.state.failures := by
  obtain ⟨_ | _, s⟩ := a
  · exact Nat.le_of_lt h
  · exact Nat.le_of_eq (Eq.symm h)

theorem Attempt.Tells.andThen {ε α β σ : Type} {before : Nat} {a : Attempt ε α (Watched σ)}
    (h : a.Tells before) {next : α → Watched σ → Attempt ε β (Watched σ)}
    (hnext : ∀ answer s, (next answer s).Tells s.failures) : (a.andThen next).Tells before := by
  obtain ⟨_ | answer, s⟩ := a
  · exact h
  · have hlater := hnext answer s
    rwa [show s.failures = before from h] at hlater

/-! ## Disks that can be read -/

/-- What the disk holds can be read. -/
def Readable {σ : Type} [Storage σ] (disk : σ) : Prop :=
  (∃ ballot, Storage.loadBallot disk = .ok ballot) ∧ ∃ entries, Storage.loadLog disk = .ok entries

/-- A disk that can be read can still be read after every change, and after one that has failed. -/
class StaysReadable (σ : Type) [Storage σ] : Prop where
  saveBallot : ∀ (disk : σ) (ballot : Ballot), Readable disk →
    Readable (Storage.saveBallot disk ballot).state
  appendEntries : ∀ (disk : σ) (entries : List Entry), Readable disk →
    Readable (Storage.appendEntries disk entries).state
  truncateFrom : ∀ (disk : σ) (start : Nat), Readable disk →
    Readable (Storage.truncateFrom disk start).state

theorem Contents.readable (disk : Contents) : Readable disk := ⟨⟨_, rfl⟩, ⟨_, rfl⟩⟩

instance : StaysReadable Contents where
  saveBallot _ _ _ := Contents.readable _
  appendEntries _ _ _ := Contents.readable _
  truncateFrom _ _ _ := Contents.readable _

theorem Fated.readable {σ : Type} [LawfulStorage σ] (s : Fated σ)
    (call : σ → Attempt DiskError Unit σ) (h : Readable s.disk)
    (hcall : Readable (call s.disk).state) : Readable (s.change call).state.disk := by
  unfold Fated.change
  split
  · exact h
  · exact hcall

instance {σ : Type} [LawfulStorage σ] [StaysReadable σ] : StaysReadable (Fated σ) where
  saveBallot s ballot h := s.readable _ h (StaysReadable.saveBallot s.disk ballot h)
  appendEntries s entries h := s.readable _ h (StaysReadable.appendEntries s.disk entries h)
  truncateFrom s start h := s.readable _ h (StaysReadable.truncateFrom s.disk start h)

theorem Watched.readable {σ : Type} [LawfulStorage σ] (s : Watched σ)
    (call : σ → Attempt DiskError Unit σ) (hcall : Readable (call s.disk).state) :
    Readable (s.change call).state.disk := by
  unfold Watched.change
  generalize call s.disk = changed at hcall ⊢
  obtain ⟨_ | _, disk⟩ := changed <;> exact hcall

instance {σ : Type} [LawfulStorage σ] [StaysReadable σ] : StaysReadable (Watched σ) where
  saveBallot s ballot h := s.readable _ (StaysReadable.saveBallot s.disk ballot h)
  appendEntries s entries h := s.readable _ (StaysReadable.appendEntries s.disk entries h)
  truncateFrom s start h := s.readable _ (StaysReadable.truncateFrom s.disk start h)

end Quorum
