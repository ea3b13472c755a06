import Quorum.Proofs.State.Operations

set_option autoImplicit false

/-! # Operations on a disk that is watched

On a disk that counts the changes that have failed one can tell whether a call has failed in the
course of an operation, whatever the operation answers. A write of the log answers with an error if
and only if one of its calls has failed. -/

namespace Quorum.DurableState

variable {σ : Type} [LawfulStorage σ]

/-- A call to the disk fails in the course of an operation. -/
def CallFails (s : DurableState (Watched σ)) (op : Operation) : Prop :=
  s.disk.failures < (s.perform op).state.disk.failures

instance (s : DurableState (Watched σ)) (op : Operation) : Decidable (s.CallFails op) := by
  unfold CallFails; infer_instance

/-! ## The count -/

theorem tells_make (disk : Watched σ) (change : DiskChange) :
    (change.make disk).Tells disk.failures := by
  cases change with
  | saveBallot ballot => exact disk.tells_change (Storage.saveBallot · ballot)
  | appendEntries entries => exact disk.tells_change (Storage.appendEntries · entries)
  | truncateFrom start => exact disk.tells_change (Storage.truncateFrom · start)

/-- Failures are not taken back. -/
theorem failures_le_perform (s : DurableState (Watched σ)) (op : Operation) :
    s.disk.failures ≤ (s.perform op).state.disk.failures :=
  perform_disk (P := (s.disk.failures ≤ ·.failures))
    (fun disk change h => Nat.le_trans h (tells_make disk change).le) s op (Nat.le_refl _)

theorem failures_le_after (s : DurableState (Watched σ)) (ops : List Operation) :
    s.disk.failures ≤ (s.after ops).disk.failures := by
  induction ops generalizing s with
  | nil => exact Nat.le_refl _
  | cons op ops ih => exact Nat.le_trans (s.failures_le_perform op) (ih _)

/-! ## Writing the log -/

/-- Writing the log fails if and only if one of the calls to the disk does. -/
theorem tells_writeLogFrom (s : DurableState (Watched σ)) (start stored : Nat) :
    ((s.writeLogFrom start stored).within disk).Tells s.disk.failures := by
  unfold DurableState.writeLogFrom
  generalize (s.unsyncedFrom.map (min · start)).getD start = first
  have hkept : (if s.unsyncedFrom.isSome || first ≤ stored then Storage.truncateFrom s.disk first
      else Attempt.ok () s.disk : Attempt DiskError Unit (Watched σ)).Tells s.disk.failures := by
    split
    · exact s.disk.tells_change _
    · exact rfl
  have hwritten := hkept.andThen fun _ (disk : Watched σ) =>
    disk.tells_change (Storage.appendEntries · (s.log.entriesFrom first))
  simp only
  generalize Attempt.andThen _ _ = written at hwritten ⊢
  obtain ⟨_ | _, disk⟩ := written <;> exact hwritten

omit [LawfulStorage σ] in
/-- What only follows a write with an answer fails if and only if the write does. -/
theorem tells_answer {α β γ : Type} {before : Nat}
    {a : Attempt EngineError α (DurableState (Watched σ))} (h : (a.within disk).Tells before)
    (b : β) (f : β → γ) :
    (((a.andThen fun _ s => .ok b s).map f).within disk).Tells before := by
  obtain ⟨_ | _, s⟩ := a <;> exact h

theorem tells_append (s : DurableState (Watched σ)) (batch : List Entry) (prev : Position) :
    ((s.perform (.append batch prev)).within disk).Tells s.disk.failures := by
  show (((s.append batch prev).map _).within disk).Tells _
  unfold DurableState.append
  split
  · next log _ => exact tells_answer (tells_writeLogFrom { s with log } _ _) _ _
  · exact rfl

theorem tells_appendCommand (s : DurableState (Watched σ)) (term : Nat) (command : Bytes) :
    ((s.perform (.appendCommand term command)).within disk).Tells s.disk.failures := by
  show (((s.appendCommand term command).map _).within disk).Tells _
  unfold DurableState.appendCommand
  split
  · exact rfl
  · exact tells_answer (tells_writeLogFrom { s with log := s.log.push term command } _ _) _ _

/-- If an operation tries to write the log and does not succeed, a call to the disk has failed. -/
theorem callFails_of_writes? {s : DurableState (Watched σ)} {op : Operation}
    (h : s.writes? op = some false) : s.CallFails op := by
  unfold writes? at h
  split at h
  · cases h
  · next herror => exact (s.tells_append _ _).lt herror
  · cases h
  · next herror => exact (s.tells_appendCommand _ _).lt herror
  · cases h
  · cases h

/-! ## A disk that is watched and fails -/

/-- Server 1 with an empty disk that is watched, some of whose next writes fail. -/
def watched (fails : List Bool) : DurableState (Watched (Fated Contents)) :=
  { unreliable fails with disk := ⟨(unreliable fails).disk, 0⟩ }

end Quorum.DurableState
