import Quorum.State.Volatile

set_option autoImplicit false

/-! # The committed and the applied index

Whatever a server is asked to do with its volatile state, the applied index stays at most the
committed one and neither goes back. An update that is refused changes nothing, with one exception.
Setting both indices is two updates, of which the second can be refused when the first has been made
already: the committed index is then raised although the answer is an error. Whether an update ends
like this is `HalfDone`. -/

namespace Quorum.VolatileState

/-! ## Updates -/

/-- What can be asked of the volatile state. -/
inductive Update where
  | setIndices (committed applied : Nat)
  | raiseCommitted (index : Nat)
  | advanceCommitted (index : Nat)
  | raiseApplied (index : Nat)
  | setLeader (leader : ServerId)
  | clearLeader
  deriving DecidableEq, Repr

/-- Make an update; the answer tells whether the committed index has advanced, if that was asked. -/
def update (v : VolatileState) : Update → Attempt EngineError (Option Bool) VolatileState
  | .setIndices committed applied => (v.setIndices committed applied).map fun _ => none
  | .raiseCommitted index => (v.raiseCommitted index).map fun _ => none
  | .advanceCommitted index => .ok (some (v.advanceCommitted index).1) (v.advanceCommitted index).2
  | .raiseApplied index => (v.raiseApplied index).map fun _ => none
  | .setLeader leader => .ok none (v.setLeader leader)
  | .clearLeader => .ok none v.clearLeader

/-- The state after some updates, made or refused. -/
def after (v : VolatileState) (updates : List Update) : VolatileState :=
  updates.foldl (fun v u => (v.update u).state) v

/-- The committed index is to be raised, and the applied one to be set to what it cannot be: less
    than it is, or more than the new committed index. -/
def HalfDone (v : VolatileState) : Update → Prop
  | .setIndices committed applied =>
      v.committed < committed ∧ (applied < v.applied ∨ committed < applied)
  | .raiseCommitted _ | .advanceCommitted _ | .raiseApplied _ | .setLeader _ | .clearLeader => False

instance (v : VolatileState) : (u : Update) → Decidable (v.HalfDone u)
  | .setIndices committed applied =>
      inferInstanceAs
        (Decidable (v.committed < committed ∧ (applied < v.applied ∨ committed < applied)))
  | .raiseCommitted _ | .advanceCommitted _ | .raiseApplied _ | .setLeader _ | .clearLeader =>
      inferInstanceAs (Decidable False)

/-! ## What an update can come to -/

/-- What can become of a state that an update is made to. -/
inductive Updates (v : VolatileState) (u : Update) :
    Attempt EngineError (Option Bool) VolatileState → Prop where
  | done (answer : Option Bool) {after : VolatileState} (hwhole : ¬ v.HalfDone u)
      (hcommitted : v.committed ≤ after.committed) (happlied : v.applied ≤ after.applied)
      (hordered : after.applied ≤ after.committed) : Updates v u (.ok answer after)
  | refused (e : EngineError) (hwhole : ¬ v.HalfDone u) : Updates v u (.error e v)
  | halfDone (e : EngineError) {committed : Nat} (hhalf : v.HalfDone u)
      (hraised : v.committed < committed) : Updates v u (.error e { v with committed })

/-- What is refused is a committed index that would go back. -/
theorem raiseCommitted_eq {v : VolatileState} (h : v.applied ≤ v.committed) (index : Nat) :
    v.raiseCommitted index =
      if index < v.committed then
        .error (.invalidArgument (.commitBelowCommitted index v.committed)) v
      else .ok () { v with committed := index } := by
  unfold VolatileState.raiseCommitted
  split
  · rfl
  · next hle => rw [if_neg (show ¬ index < v.applied by omega)]

/-- What follows a raise that was made is refused as a whole only if it was no raise. -/
theorem updates_of_refused {v : VolatileState} {committed applied : Nat}
    (hcommitted : v.committed ≤ committed) (hrefused : applied < v.applied ∨ committed < applied)
    (e : EngineError) :
    v.Updates (.setIndices committed applied) (.error e { v with committed }) := by
  rcases Nat.eq_or_lt_of_le hcommitted with rfl | hraised
  · exact .refused e fun hhalf => Nat.lt_irrefl _ hhalf.1
  · exact .halfDone e ⟨hraised, hrefused⟩ hraised

theorem updates_update {v : VolatileState} (h : v.applied ≤ v.committed) (u : Update) :
    v.Updates u (v.update u) := by
  cases u with
  | setIndices committed applied =>
    show v.Updates _ ((v.setIndices committed applied).map _)
    unfold VolatileState.setIndices
    rw [raiseCommitted_eq h]
    split
    · next hback => exact .refused _ fun hhalf => Nat.lt_asymm hback hhalf.1
    · next hback =>
      have hcommitted := Nat.le_of_not_lt hback
      rw [Attempt.andThen_ok]
      unfold VolatileState.raiseApplied
      split
      · next hless => exact updates_of_refused hcommitted (.inl hless) _
      · next hless =>
        split
        · next hmore => exact updates_of_refused hcommitted (.inr hmore) _
        · next hmore =>
          exact .done none (fun hhalf => hhalf.2.elim hless hmore) hcommitted
            (Nat.le_of_not_lt hless) (Nat.le_of_not_lt hmore)
  | raiseCommitted index =>
    show v.Updates _ ((v.raiseCommitted index).map _)
    rw [raiseCommitted_eq h]
    split
    · exact .refused _ id
    · next hback =>
      have hcommitted := Nat.le_of_not_lt hback
      exact .done none id hcommitted (Nat.le_refl _) (Nat.le_trans h hcommitted)
  | advanceCommitted index =>
    show v.Updates _ (.ok (some (v.advanceCommitted index).1) (v.advanceCommitted index).2)
    unfold VolatileState.advanceCommitted
    split
    · exact .done _ id (Nat.le_refl _) (Nat.le_refl _) h
    · next hback =>
      have hcommitted := Nat.le_of_not_le hback
      exact .done _ id hcommitted (Nat.le_refl _) (Nat.le_trans h hcommitted)
  | raiseApplied index =>
    show v.Updates _ ((v.raiseApplied index).map _)
    unfold VolatileState.raiseApplied
    split
    · exact .refused _ id
    · next hless =>
      split
      · exact .refused _ id
      · next hmore =>
        exact .done none id (Nat.le_refl _) (Nat.le_of_not_lt hless) (Nat.le_of_not_lt hmore)
  | setLeader leader => exact .done none id (Nat.le_refl _) (Nat.le_refl _) h
  | clearLeader => exact .done none id (Nat.le_refl _) (Nat.le_refl _) h

theorem Updates.ordered {v : VolatileState} {u : Update}
    {updated : Attempt EngineError (Option Bool) VolatileState} (hupdates : v.Updates u updated)
    (h : v.applied ≤ v.committed) : updated.state.applied ≤ updated.state.committed := by
  cases hupdates with
  | done _ _ _ _ hordered => exact hordered
  | refused => exact h
  | halfDone _ _ hraised => exact Nat.le_trans h (Nat.le_of_lt hraised)

/-- Neither index goes back. -/
theorem Updates.le {v : VolatileState} {u : Update}
    {updated : Attempt EngineError (Option Bool) VolatileState} (hupdates : v.Updates u updated) :
    v.committed ≤ updated.state.committed ∧ v.applied ≤ updated.state.applied := by
  cases hupdates with
  | done _ _ hcommitted happlied _ => exact ⟨hcommitted, happlied⟩
  | refused => exact ⟨Nat.le_refl _, Nat.le_refl _⟩
  | halfDone _ _ hraised => exact ⟨Nat.le_of_lt hraised, Nat.le_refl _⟩

/-! ## Runs -/

/-- The applied index stays at most the committed one. -/
theorem applied_le_after {v : VolatileState} (h : v.applied ≤ v.committed)
    (updates : List Update) : (v.after updates).applied ≤ (v.after updates).committed := by
  induction updates generalizing v with
  | nil => exact h
  | cons u updates ih => exact ih ((updates_update h u).ordered h)

/-- What an update does to the indices. -/
structure KeepsOrder (v : VolatileState) (u : Update) : Prop where
  ordered : (v.update u).state.applied ≤ (v.update u).state.committed
  committed_le : v.committed ≤ (v.update u).state.committed
  applied_le : v.applied ≤ (v.update u).state.applied
  /-- An update that is refused changes nothing, unless it is half done. -/
  refused : ∀ e, (v.update u).result = .error e → ¬ v.HalfDone u → (v.update u).state = v
  /-- One that is half done is refused, and has raised the committed index and nothing else. -/
  halfDone : v.HalfDone u → (∃ e, (v.update u).result = .error e) ∧
    ∃ committed, v.committed < committed ∧ (v.update u).state = { v with committed }

/-- After any updates to the state that a server starts with, whatever is asked of it next keeps the
    indices in order. -/
theorem updates_keep_order (updates : List Update) (u : Update) :
    (initial.after updates).KeepsOrder u := by
  have h := applied_le_after (v := initial) (Nat.le_refl 0) updates
  generalize initial.after updates = v at h ⊢
  have hupdates := updates_update h u
  constructor
  · exact hupdates.ordered h
  · exact hupdates.le.1
  · exact hupdates.le.2
  · intro e herror hwhole
    generalize v.update u = updated at hupdates herror ⊢
    cases hupdates with
    | done => cases herror
    | refused => rfl
    | halfDone _ hhalf => exact absurd hhalf hwhole
  · intro hhalf
    generalize v.update u = updated at hupdates ⊢
    cases hupdates with
    | done _ hwhole => exact absurd hhalf hwhole
    | refused _ hwhole => exact absurd hhalf hwhole
    | halfDone e _ hraised => exact ⟨⟨e, rfl⟩, _, hraised, rfl⟩

/-- A committed index is raised by an update that is refused. -/
theorem not_refused_unchanged :
    ¬ ∀ (updates : List Update) (u : Update) (e : EngineError),
      ((initial.after updates).update u).result = .error e →
        ((initial.after updates).update u).state = initial.after updates := by
  intro h
  have hsame := h [] (.setIndices 2 3) _ rfl
  revert hsame
  decide

end Quorum.VolatileState
