import Quorum.Proofs.State.Failures
import Quorum.Proofs.State.Votes
import Quorum.Proofs.State.WithinDisk

set_option autoImplicit false

/-! # A restart is not noticed

As long as no call to the disk fails, whoever holds the durable state cannot tell whether it was
forgotten and loaded again in between. All of it is on the disk but one number: `votedTerm`, the
last term in which a vote was given, comes back as 0 if there is no vote on the ballot. What it is
used for is to know whether a vote was given in the present term, and this the ballot shows as
well, unless it was reset within its term. -/

namespace Quorum.DurableState

variable {σ : Type}

/-! ## What is noticed -/

/-- What an operation answers, apart from restarts. -/
def answer? [Storage σ] (s : DurableState σ) (op : Operation) :
    Option (Except EngineError Response) :=
  if op = .reload then none else some (s.perform op).result

/-- What some operations answer, apart from restarts. -/
abbrev answers [Storage σ] (s : DurableState σ) (ops : List Operation) :
    List (Except EngineError Response) := s.trace answer? ops

/-- The operations without the restarts between them. -/
def withoutReloads (ops : List Operation) : List Operation := ops.filter (· ≠ .reload)

/-- The ballot is never reset to the term that it is in. -/
def MovesOn [Storage σ] (s : DurableState σ) : List Operation → Prop
  | [] => True
  | op :: ops => op ≠ .resetTerm s.term ∧ (s.perform op).state.MovesOn ops

instance decidableMovesOn [Storage σ] (s : DurableState σ) :
    (ops : List Operation) → Decidable (s.MovesOn ops)
  | [] => isTrue trivial
  | op :: ops =>
    have := decidableMovesOn (s.perform op).state ops
    inferInstanceAs (Decidable (_ ∧ _))

/-! ## States that differ in the guard of the vote -/

/-- The state with another guard of the vote. -/
def guardedBy (s : DurableState σ) (votedTerm : Nat) : DurableState σ := { s with votedTerm }

/-- The states are the same but for the guard of the vote, and agree on whether a vote was given in
    the present term. -/
def Resembles (s t : DurableState σ) : Prop :=
  ∃ votedTerm, t = s.guardedBy votedTerm ∧ (s.term ≤ s.votedTerm ↔ s.term ≤ votedTerm)

theorem Resembles.refl (s : DurableState σ) : s.Resembles s := ⟨s.votedTerm, rfl, Iff.rfl⟩

theorem Resembles.trans {s t u : DurableState σ} (h : s.Resembles t) (h' : t.Resembles u) :
    s.Resembles u := by
  obtain ⟨guard, rfl, hguard⟩ := h
  obtain ⟨guard', rfl, hguard'⟩ := h'
  exact ⟨guard', rfl, hguard.trans hguard'⟩

theorem Resembles.ballot {s t : DurableState σ} (h : s.Resembles t) : t.ballot = s.ballot := by
  obtain ⟨guard, rfl, -⟩ := h
  rfl

theorem Resembles.log {s t : DurableState σ} (h : s.Resembles t) : t.log = s.log := by
  obtain ⟨guard, rfl, -⟩ := h
  rfl

theorem Resembles.disk {s t : DurableState σ} (h : s.Resembles t) : t.disk = s.disk := by
  obtain ⟨guard, rfl, -⟩ := h
  rfl

section

variable [Storage σ]

/-- The guard has nothing to do with what is saved. -/
theorem saveBallot_guardedBy (s : DurableState σ) (guard : Nat) (ballot : Ballot) :
    (∃ disk, s.saveBallot ballot = .ok () { s with ballot, disk } ∧
        (s.guardedBy guard).saveBallot ballot =
          .ok () { s with ballot, disk, votedTerm := guard }) ∨
      ∃ e disk, s.saveBallot ballot = .error (.storage e) { s with disk } ∧
        (s.guardedBy guard).saveBallot ballot =
          .error (.storage e) { s with disk, votedTerm := guard } := by
  unfold DurableState.saveBallot guardedBy
  simp only
  split
  · exact Or.inl ⟨_, rfl, rfl⟩
  · exact Or.inr ⟨_, _, rfl, rfl⟩

theorem writeLogFrom_guardedBy (s : DurableState σ) (guard start stored : Nat) :
    (s.guardedBy guard).writeLogFrom start stored =
      (s.writeLogFrom start stored).within (guardedBy · guard) := by
  unfold DurableState.writeLogFrom guardedBy
  simp only
  generalize Attempt.andThen _ _ = written
  obtain ⟨_ | _, disk⟩ := written <;> rfl

theorem append_guardedBy (s : DurableState σ) (guard : Nat) (batch : List Entry)
    (prev : Position) :
    (s.guardedBy guard).append batch prev =
      (s.append batch prev).within (guardedBy · guard) := by
  have hlog : (s.guardedBy guard).log = s.log := rfl
  unfold DurableState.append
  rw [hlog]
  generalize s.log.append batch prev = taken
  obtain ⟨_ | ⟨last, _ | first⟩, log⟩ := taken
  · rfl
  · rfl
  · have hwrites := writeLogFrom_guardedBy { s with log } guard first s.log.length
    exact (congrArg (Attempt.andThen · _) hwrites).trans (Attempt.within_answer ..)

theorem appendCommand_guardedBy (s : DurableState σ) (guard term : Nat) (command : Bytes) :
    (s.guardedBy guard).appendCommand term command =
      (s.appendCommand term command).within (guardedBy · guard) := by
  unfold DurableState.appendCommand
  change (if s.term ≠ term then _ else _) = _
  split
  · rfl
  · have hwrites := writeLogFrom_guardedBy { s with log := s.log.push term command } guard
      (s.log.next term command).index s.log.length
    exact (congrArg (Attempt.andThen · _) hwrites).trans (Attempt.within_answer ..)

/-! ## An operation -/

variable {s : DurableState σ} {guard : Nat} (hguard : s.term ≤ s.votedTerm ↔ s.term ≤ guard)
include hguard

theorem alike_saveBallot {ballot : Ballot}
    (hsaved : ballot.term ≤ s.votedTerm ↔ ballot.term ≤ guard) :
    (s.saveBallot ballot).Alike Resembles ((s.guardedBy guard).saveBallot ballot) := by
  rcases s.saveBallot_guardedBy guard ballot with ⟨disk, heq, heq'⟩ | ⟨e, disk, heq, heq'⟩ <;>
    rw [heq, heq']
  · exact ⟨rfl, guard, rfl, hsaved⟩
  · exact ⟨rfl, guard, rfl, hguard⟩

/-- A vote that is put on the ballot sets the guard, whatever it was. -/
theorem alike_vote (ballot : Ballot) {α : Type} (answer : α)
    {guarded : DurableState σ → DurableState σ}
    (hset : ∀ s, guarded (s.guardedBy guard) = guarded s) :
    ((s.saveBallot ballot).andThen fun _ s => .ok answer (guarded s)).Alike Resembles
      (((s.guardedBy guard).saveBallot ballot).andThen fun _ s => .ok answer (guarded s)) := by
  rcases s.saveBallot_guardedBy guard ballot with ⟨disk, heq, heq'⟩ | ⟨e, disk, heq, heq'⟩ <;>
    rw [heq, heq']
  · have hsame := hset { s with ballot, disk }
    rw [Attempt.andThen_ok, Attempt.andThen_ok]
    exact hsame ▸ ⟨rfl, Resembles.refl _⟩
  · exact ⟨rfl, guard, rfl, hguard⟩

theorem alike_openTerm : s.openTerm.Alike Resembles (s.guardedBy guard).openTerm := by
  rcases Nat.lt_or_ge (s.term + 1) wordLimit with hlt | hge
  · rw [openTerm_of_lt hlt, openTerm_of_lt (s := s.guardedBy guard) hlt]
    exact alike_vote hguard ⟨s.term + 1, some s.id⟩ (s.term + 1) fun _ => rfl
  · rw [openTerm_of_le hge, openTerm_of_le (s := s.guardedBy guard) hge]
    exact ⟨rfl, guard, rfl, hguard⟩

theorem alike_resetTerm (hle : s.votedTerm ≤ s.term) (hle' : guard ≤ s.term) (term : Nat) :
    (s.resetTerm term).Alike Resembles ((s.guardedBy guard).resetTerm term) := by
  unfold DurableState.resetTerm
  change Attempt.Alike _ _ (if term < s.term then _ else _)
  split
  · exact ⟨rfl, guard, rfl, hguard⟩
  · refine alike_saveBallot hguard ?_
    show term ≤ s.votedTerm ↔ term ≤ guard
    omega

theorem alike_adoptTerm (hle : s.votedTerm ≤ s.term) (hle' : guard ≤ s.term) (term : Nat) :
    (s.adoptTerm term).Alike Resembles ((s.guardedBy guard).adoptTerm term) := by
  unfold DurableState.adoptTerm
  change Attempt.Alike _ _ (if term ≤ s.term then _ else _)
  split
  · exact ⟨rfl, guard, rfl, hguard⟩
  · refine (alike_saveBallot hguard ?_).andThen fun _ _ _ hsame => ⟨rfl, hsame⟩
    show term ≤ s.votedTerm ↔ term ≤ guard
    omega

theorem alike_giveVote (candidate : ServerId) :
    (s.giveVote candidate).Alike Resembles ((s.guardedBy guard).giveVote candidate) := by
  unfold DurableState.giveVote
  change Attempt.Alike _ _ (if s.term ≤ guard then _ else _)
  simp only [← hguard]
  split
  · exact ⟨rfl, guard, rfl, hguard⟩
  · exact alike_vote hguard ⟨s.term, some candidate⟩ () fun _ => rfl

theorem alike_grantVote (term : Nat) (candidate : ServerId) (last : Position) :
    (s.grantVote term candidate last).Alike Resembles
      ((s.guardedBy guard).grantVote term candidate last) := by
  have hsame : s.Resembles (s.guardedBy guard) := ⟨guard, rfl, hguard⟩
  unfold DurableState.grantVote
  change Attempt.Alike _ _ (if term ≠ s.term then _ else if s.vote = some candidate then _
    else if s.term ≤ guard then _ else if s.log.IsUpToDate last then _ else _)
  simp only [← hguard]
  split
  · exact ⟨rfl, hsame⟩
  · split
    · exact ⟨rfl, hsame⟩
    · split
      · exact ⟨rfl, hsame⟩
      · split
        · exact (alike_giveVote hguard candidate).andThen fun _ _ _ hsame => ⟨rfl, hsame⟩
        · exact ⟨rfl, hsame⟩

omit hguard in
/-- Operations on states that resemble cannot be told apart. -/
theorem Resembles.perform {s t : DurableState σ} (h : s.Resembles t)
    (hs : s.votedTerm ≤ s.term) (ht : t.votedTerm ≤ t.term) {op : Operation} (hop : op ≠ .reload) :
    (s.perform op).Alike Resembles (t.perform op) := by
  obtain ⟨guard, rfl, hguard⟩ := h
  cases op with
  | openTerm => exact (alike_openTerm hguard).map _
  | resetTerm term => exact (alike_resetTerm hguard hs ht term).map _
  | adoptTerm term => exact (alike_adoptTerm hguard hs ht term).map _
  | giveVote candidate => exact (alike_giveVote hguard candidate).map _
  | grantVote term candidate last => exact (alike_grantVote hguard term candidate last).map _
  | append batch prev =>
    refine Attempt.Alike.map ?_ _
    rw [append_guardedBy]
    obtain ⟨-, hballot, hvoted⟩ := s.retains_append batch prev
    refine ⟨rfl, guard, rfl, ?_⟩
    rwa [DurableState.term, hballot, hvoted]
  | appendCommand term command =>
    refine Attempt.Alike.map ?_ _
    rw [appendCommand_guardedBy]
    obtain ⟨-, hballot, hvoted⟩ := s.retains_appendCommand term command
    refine ⟨rfl, guard, rfl, ?_⟩
    rwa [DurableState.term, hballot, hvoted]
  | reload => exact absurd rfl hop

end

/-! ## A restart -/

/-- The state is all on the disk, which can be read. -/
structure Settled [LawfulStorage σ] (s : DurableState σ) : Prop where
  coherent : s.Coherent
  synced : s.unsyncedFrom = none
  votes : ¬ s.HidesVote
  readable : Readable s.disk

section

variable [LawfulStorage σ]

theorem settled_of_load {id : ServerId} {disk : σ} {s : DurableState σ}
    (hload : DurableState.load id disk = .ok s) : s.Settled where
  coherent := (load_eq hload).2.2.2.2
  synced := (load_fresh hload).1
  votes := not_hidesVote_of_load hload
  readable := (load_eq hload).2.1 ▸ readable_of_load hload

/-- A restart brings back everything but the guard of the vote, which serves as well as it did. -/
theorem Settled.resembles_of_load {s loaded : DurableState σ} (h : s.Settled)
    (hload : DurableState.load s.id s.disk = .ok loaded) : s.Resembles loaded := by
  obtain ⟨hid, hdisk, hballot, hlog, hloaded⟩ := load_eq hload
  obtain ⟨hsynced, hnone⟩ := load_fresh hload
  have hballot : loaded.ballot = s.ballot := hballot.trans h.coherent.ballot
  have hlog : loaded.log = s.log :=
    Log.eq_of_entries_eq (hlog.trans (h.coherent.synced h.synced))
  have hguard : s.term ≤ s.votedTerm ↔ s.term ≤ loaded.votedTerm := by
    have hle := h.coherent.votedTerm_le
    cases hvote : s.vote with
    | some candidate =>
      have hvoted := h.coherent.votedTerm_eq (Option.isSome_of_eq_some hvote)
      have hvoted' := hloaded.votedTerm_eq (by
        rw [DurableState.vote, hballot]
        exact Option.isSome_of_eq_some hvote)
      rw [DurableState.term, hballot] at hvoted'
      rw [hvoted, hvoted']
    | none =>
      -- nobody has the vote of a term in which memory knows of none
      have hhides : ¬ (s.votedTerm = s.term ∧ 0 < s.term) := fun hhides => h.votes ⟨hvote, hhides⟩
      rw [hnone (by rw [DurableState.vote, hballot]; exact hvote)]
      omega
  refine ⟨loaded.votedTerm, ?_, hguard⟩
  obtain ⟨id, ballot, votedTerm, log, disk, unsyncedFrom⟩ := loaded
  simp only at hid hdisk hballot hlog hsynced
  rw [hid, hdisk, hballot, hlog, hsynced, ← h.synced]
  rfl

theorem Settled.reload {s : DurableState σ} (h : s.Settled) :
    (s.perform .reload).result = .ok .done ∧ s.Resembles (s.perform .reload).state ∧
      (s.perform .reload).state.Settled := by
  obtain ⟨loaded, hload, -, -⟩ := h.coherent.exists_load h.readable s.id
  have hperform : s.perform .reload = .ok .done loaded := by
    unfold DurableState.perform
    rw [hload]
  rw [hperform]
  exact ⟨rfl, h.resembles_of_load hload, settled_of_load hload⟩

/-- As long as no call fails, everything stays on the disk. -/
theorem Settled.perform [StaysReadable σ] {s : DurableState (Watched σ)} (h : s.Settled)
    {op : Operation} (hworks : ¬ s.CallFails op) (hop : op ≠ .resetTerm s.term) :
    (s.perform op).state.Settled where
  coherent := (performs_perform h.coherent op).2
  synced := by
    rcases h.coherent.unsyncedFrom_perform op with hnone | hfailed | ⟨-, hsame⟩
    · exact hnone
    · exact absurd (callFails_of_writes? hfailed) hworks
    · exact hsame.trans h.synced
  votes := h.coherent.not_hidesVote h.votes hop
  readable := readable_after h.readable [op]

/-! ## Runs -/

/-- What restarts during some operations come to if nobody can notice them. -/
structure Unnoticed (s : DurableState σ) (ops : List Operation) : Prop where
  /-- The other operations answer as they would without the restarts. -/
  answers : s.answers ops = s.answers (withoutReloads ops)
  /-- The restarts succeed. -/
  reloads : ∀ before later, ops = before ++ .reload :: later →
    ((s.after before).perform .reload).result = .ok .done
  /-- At the end there is what there would be without them. -/
  ballot : (s.after ops).ballot = (s.after (withoutReloads ops)).ballot
  log : (s.after ops).log = (s.after (withoutReloads ops)).log
  disk : (s.after ops).disk = (s.after (withoutReloads ops)).disk

/-- What holds before the first restart and before all others holds before every one. -/
theorem forall_reload_cons {P : List Operation → Prop} {op : Operation} {ops : List Operation}
    (hfirst : op = .reload → P [])
    (hrest : ∀ before later, ops = before ++ .reload :: later → P (op :: before)) :
    ∀ before later, op :: ops = before ++ .reload :: later → P before := by
  intro before later heq
  cases before with
  | nil => exact hfirst (List.cons.inj heq).1
  | cons first before =>
    obtain ⟨rfl, hrest'⟩ := List.cons.inj heq
    exact hrest before later hrest'

/-- Of two states that resemble, one goes through some operations and the other one through the same
    and restarts between them. -/
theorem Resembles.after [StaysReadable σ] {s t : DurableState (Watched σ)} {ops : List Operation}
    (h : s.Resembles t) (hs : s.Coherent) (ht : t.Settled)
    (hworks : (s.after (withoutReloads ops)).disk.failures = s.disk.failures)
    (hmoves : s.MovesOn (withoutReloads ops)) :
    t.answers ops = s.answers (withoutReloads ops) ∧
      (∀ before later, ops = before ++ .reload :: later →
        ((t.after before).perform .reload).result = .ok .done) ∧
      (s.after (withoutReloads ops)).Resembles (t.after ops) := by
  induction ops generalizing s t with
  | nil => exact ⟨rfl, by simp, h⟩
  | cons op ops ih =>
    by_cases hop : op = .reload
    · subst hop
      have hskip : withoutReloads (.reload :: ops) = withoutReloads ops := rfl
      rw [hskip] at hworks hmoves ⊢
      obtain ⟨hdone, hreloaded, hsettled⟩ := ht.reload
      obtain ⟨hanswers, hreloads, hend⟩ := ih (h.trans hreloaded) hs hsettled hworks hmoves
      exact ⟨hanswers, forall_reload_cons (fun _ => hdone) hreloads, hend⟩
    · have hkeep : withoutReloads (op :: ops) = op :: withoutReloads ops := by
        simp [withoutReloads, hop]
      rw [hkeep] at hworks hmoves ⊢
      obtain ⟨hmoves, hlater⟩ := hmoves
      obtain ⟨hresult, hstate⟩ := h.perform hs.votedTerm_le ht.coherent.votedTerm_le hop
      -- failures are not taken back, so none of the calls can have failed
      have hle := s.failures_le_perform op
      have hle' := (s.perform op).state.failures_le_after (withoutReloads ops)
      rw [after_cons] at hworks
      have hnone : ¬ t.CallFails op := by
        rw [CallFails, hstate.disk, h.disk]
        omega
      have hsettled := ht.perform hnone (by rwa [DurableState.term, h.ballot])
      obtain ⟨hanswers, hreloads, hend⟩ :=
        ih hstate (performs_perform hs op).2 hsettled (by omega) hlater
      refine ⟨?_, forall_reload_cons (fun heq => absurd heq hop) hreloads, hend⟩
      have hanswer : t.answer? op = s.answer? op := by rw [answer?, answer?, hresult]
      exact congrArg₂ (fun first rest => first.toList ++ rest) hanswer hanswers

/-- If no call to the disk fails and the ballot is not reset within its term, it does not matter
    where the state is forgotten and loaded again. -/
theorem restarts_unnoticed [StaysReadable σ] {id : ServerId} {disk : Watched σ}
    {s : DurableState (Watched σ)} (hload : DurableState.load id disk = .ok s)
    (ops : List Operation)
    (hworks : (s.after (withoutReloads ops)).disk.failures = s.disk.failures)
    (hmoves : s.MovesOn (withoutReloads ops)) : s.Unnoticed ops := by
  have hsettled := settled_of_load hload
  obtain ⟨hanswers, hreloads, hend⟩ :=
    (Resembles.refl s).after hsettled.coherent hsettled hworks hmoves
  exact ⟨hanswers, hreloads, hend.ballot, hend.log, hend.disk⟩

/-- Votes, commands and a batch, with restarts between them. -/
def interrupted : List Operation :=
  [.openTerm, .adoptTerm 2, .reload, .giveVote ⟨3⟩, .reload, .giveVote ⟨4⟩,
    .grantVote 2 ⟨3⟩ .origin, .resetTerm 5, .reload, .grantVote 5 ⟨2⟩ .origin,
    .appendCommand 5 [1], .reload, .append [⟨5, 1, [1]⟩, ⟨5, 2, [2]⟩] .origin, .resetTerm 4,
    .reload]

/-- The guard of the vote is not what it would be without the first restart, but this cannot be
    seen. -/
theorem restarts_unnoticed_interrupted :
    let s := watched []
    (s.after (interrupted.take 2)).votedTerm = 1 ∧ (s.after (interrupted.take 3)).votedTerm = 0 ∧
      s.answers interrupted =
        [.ok (.opened 1), .ok (.adopted true), .ok .done, .error (.illegalState (.alreadyVoted 2)),
          .ok (.granted true), .ok .done, .ok (.granted true), .ok (.put (some ⟨5, 1, [1]⟩)),
          .ok (.appended (.accepted 2 (some 2))),
          .error (.invalidArgument (.termBelowCurrent 4 5))] ∧
      s.Unnoticed interrupted := by
  intro s
  have hload : DurableState.load ⟨1⟩ s.disk = .ok s := rfl
  exact ⟨by decide, by decide, by decide,
    restarts_unnoticed hload interrupted (by decide) (by decide)⟩

end

end Quorum.DurableState
