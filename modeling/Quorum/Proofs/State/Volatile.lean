import Quorum.State.Volatile

set_option autoImplicit false

/-! # Applying what is committed

The machine is fed the entries of the log one after the other, as far as they are committed and the
log holds them. Applying fails only if the log ends before the committed index, and also then all
that the log holds has been applied. -/

namespace Quorum

variable {μ : Type} [StateMachine μ]

/-- The machine after some entries. -/
def feed (machine : μ) (entries : List Entry) : μ :=
  entries.foldl (fun machine entry =>
    (StateMachine.apply machine entry.index entry.command).state) machine

theorem feed_append (machine : μ) (entries later : List Entry) :
    feed machine (entries ++ later) = feed (feed machine entries) later := List.foldl_append

theorem Log.entryAt_succ (log : Log) {index : Nat} (h : index < log.entries.length) :
    log.entryAt (index + 1) = .ok log.entries[index] := by
  have hget : log.get? (index + 1) = some log.entries[index] := by
    unfold Log.get?
    rw [if_neg (Nat.succ_ne_zero index), Nat.add_sub_cancel]
    exact List.getElem?_eq_getElem h
  rw [Log.entryAt, hget]

/-- A committed index is raised, or nothing is changed. -/
theorem VolatileState.raiseCommitted_cases (v : VolatileState) (index : Nat) :
    v.raiseCommitted index = .ok () { v with committed := index } ∨
      ∃ e, v.raiseCommitted index = .error e v := by
  unfold VolatileState.raiseCommitted
  split
  · exact Or.inr ⟨_, rfl⟩
  · split
    · exact Or.inr ⟨_, rfl⟩
    · exact Or.inl rfl

theorem VolatileState.raiseApplied_succ (v : VolatileState) (h : v.applied < v.committed) :
    v.raiseApplied (v.applied + 1) = .ok () { v with applied := v.applied + 1 } := by
  unfold VolatileState.raiseApplied
  rw [if_neg (by omega), if_neg (by omega)]

theorem Log.entryAt_of_length_lt (log : Log) {index : Nat} (h : log.length < index) :
    log.entryAt index = .error (.outOfRange index log.length) := by
  have hget : log.get? index = none := by
    unfold Log.get?
    rw [if_neg (by omega)]
    exact List.getElem?_eq_none (by unfold Log.length at h; omega)
  rw [Log.entryAt, hget]

/-- As many entries are applied as the log holds, and only an entry that it lacks is an error. -/
theorem applyNext_eq (log : Log) (count : Nat) (v : VolatileState) (machine : μ)
    (hcommitted : v.applied + count ≤ v.committed) :
    applyNext log count v machine =
      ⟨if v.applied + count ≤ max v.applied log.length then .ok count
        else .error (.outOfRange (max v.applied log.length + 1) log.length),
        ({ v with applied := max v.applied (min (v.applied + count) log.length) },
          feed machine ((log.entries.drop v.applied).take count))⟩ := by
  induction count generalizing v machine with
  | zero =>
    rw [Nat.add_zero, if_pos (Nat.le_max_left ..), Nat.max_eq_left (Nat.min_le_left ..)]
    rfl
  | succ count ih =>
    unfold applyNext
    rcases Nat.lt_or_ge v.applied log.length with hlt | hge
    · have hnext := ih { v with applied := v.applied + 1 }
        (StateMachine.apply machine log.entries[v.applied].index
          log.entries[v.applied].command).state
        (by rw [Nat.add_assoc, Nat.add_comm 1]; exact hcommitted)
      have hreach : max (v.applied + 1) log.length = max v.applied log.length := by omega
      have happlied : max (v.applied + 1) (min (v.applied + (count + 1)) log.length) =
          max v.applied (min (v.applied + (count + 1)) log.length) := by omega
      rw [log.entryAt_succ hlt, v.raiseApplied_succ (by omega)]
      simp only [Attempt.ok] at hnext ⊢
      rw [Nat.add_assoc, Nat.add_comm 1, hreach, happlied] at hnext
      rw [hnext, List.drop_eq_getElem_cons hlt, List.take_succ_cons, feed, feed, List.foldl_cons]
      split <;> rfl
    · -- there is no next entry
      have hdrop : log.entries.drop v.applied = [] := List.drop_eq_nil_of_le hge
      rw [log.entryAt_of_length_lt (Nat.lt_succ_of_le hge), Nat.max_eq_left hge,
        if_neg (by omega), Nat.max_eq_left (Nat.le_trans (Nat.min_le_right ..) hge), hdrop]
      rfl

/-- What is committed is applied as far as the log holds it, in the order of the log. -/
theorem applyCommitted_eq (log : Log) (v : VolatileState) (machine : μ)
    (happlied : v.applied ≤ v.committed) :
    applyCommitted log v machine =
      ⟨if v.committed ≤ max v.applied log.length then .ok (v.committed - v.applied)
        else .error (.outOfRange (max v.applied log.length + 1) log.length),
        ({ v with applied := max v.applied (min v.committed log.length) },
          feed machine ((log.entries.take v.committed).drop v.applied))⟩ := by
  have hcount : v.applied + (v.committed - v.applied) = v.committed :=
    Nat.add_sub_of_le happlied
  unfold applyCommitted
  rw [applyNext_eq log _ v machine (Nat.le_of_eq hcount), hcount, List.drop_take]

/-- All that is committed is applied if the log holds it. -/
theorem applyCommitted_of_le_length (log : Log) (v : VolatileState) (machine : μ)
    (happlied : v.applied ≤ v.committed) (hlog : v.committed ≤ log.length) :
    applyCommitted log v machine =
      .ok (v.committed - v.applied)
        ({ v with applied := v.committed },
          feed machine ((log.entries.take v.committed).drop v.applied)) := by
  rw [applyCommitted_eq log v machine happlied, if_pos (Nat.le_trans hlog (Nat.le_max_right ..)),
    Nat.min_eq_left hlog, Nat.max_eq_right happlied]
  rfl

/-- An applied index is raised, or nothing is changed. -/
theorem VolatileState.raiseApplied_cases (v : VolatileState) (index : Nat) :
    v.raiseApplied index = .ok () { v with applied := index } ∨
      ∃ e, v.raiseApplied index = .error e v := by
  unfold VolatileState.raiseApplied
  split
  · exact Or.inr ⟨_, rfl⟩
  · split
    · exact Or.inr ⟨_, rfl⟩
    · exact Or.inl rfl

/-- Applying commits nothing. -/
theorem applyNext_committed (log : Log) (count : Nat) (v : VolatileState) (machine : μ) :
    (applyNext log count v machine).state.1.committed = v.committed := by
  induction count generalizing v machine with
  | zero => rfl
  | succ count ih =>
    unfold applyNext
    split
    · rfl
    · rcases v.raiseApplied_cases (v.applied + 1) with hraised | ⟨e, hraised⟩
      · rw [hraised]
        simp only [Attempt.ok, Attempt.andThen]
        split <;> exact ih { v with applied := v.applied + 1 } _
      · rw [hraised]
        rfl

/-- Who stops because of an error has not applied all that was to be applied. -/
theorem applyNext_error {log : Log} {count : Nat} {v : VolatileState} {machine : μ}
    {e : EngineError} (h : (applyNext log count v machine).result = .error e) :
    (applyNext log count v machine).state.1.applied < v.applied + count := by
  induction count generalizing v machine with
  | zero => cases h
  | succ count ih =>
    unfold applyNext at h ⊢
    cases hentry : log.entryAt (v.applied + 1) with
    | error e' => exact Nat.lt_add_of_pos_right (Nat.succ_pos count)
    | ok entry =>
      simp only [hentry] at h ⊢
      rcases v.raiseApplied_cases (v.applied + 1) with hraised | ⟨e', hraised⟩
      · rw [hraised] at h ⊢
        have hlater := @ih { v with applied := v.applied + 1 }
          (StateMachine.apply machine entry.index entry.command).state
        simp only [Attempt.ok] at h ⊢
        generalize applyNext log count { v with applied := v.applied + 1 }
          (StateMachine.apply machine entry.index entry.command).state = later at h hlater ⊢
        obtain ⟨_ | n, state⟩ := later
        · have := hlater h
          show state.1.applied < v.applied + (count + 1)
          simp only at this
          omega
        · cases h
      · rw [hraised]
        exact Nat.lt_add_of_pos_right (Nat.succ_pos count)

/-- An entry that the log lacks leaves the applied index behind the committed one. -/
theorem applied_lt_of_error {log : Log} {v : VolatileState} {machine : μ} {e : EngineError}
    (h : (applyCommitted log v machine).result = .error e) :
    (applyCommitted log v machine).state.1.applied <
      (applyCommitted log v machine).state.1.committed := by
  unfold applyCommitted at h ⊢
  have hlt := applyNext_error h
  rw [applyNext_committed]
  rcases Nat.eq_zero_or_pos (v.committed - v.applied) with hzero | hpos
  · rw [hzero] at h
    cases h
  · omega

end Quorum
