import Quorum.Timer

set_option autoImplicit false

/-! # Timeouts that are to be expected

Somebody who waits for an election timer does not wait in vain if the timer runs, or has left a
timeout that still counts. This stays so until the timeout is looked at, whatever the timer does in
the meantime. Only to cancel the timer ends it: what it has left so far does not count any more. -/

namespace Quorum.ElectionTimer

/-- The timer runs, or has left a timeout that counts. -/
def Expected (timer : ElectionTimer) (timeouts : List Timeout) : Prop :=
  timer.due.isSome ∨ ∃ timeout ∈ timeouts, timer.isCurrent timeout

/-- The timeouts were left by the timer, and none of them is ahead of it. -/
def Left (timer : ElectionTimer) (timeouts : List Timeout) : Prop :=
  ∀ timeout ∈ timeouts, timeout.generation ≤ timer.generation

theorem left_nil (timer : ElectionTimer) : timer.Left [] := List.forall_mem_nil _

/-- A later generation is ahead of what was left in an earlier one. -/
theorem Left.mono {timer timer' : ElectionTimer} {timeouts : List Timeout}
    (h : timer.Left timeouts) (hle : timer.generation ≤ timer'.generation) :
    timer'.Left timeouts :=
  fun timeout hmem => Nat.le_trans (h timeout hmem) hle

/-! ## Starting and cancelling -/

theorem expected_restart (timer : ElectionTimer) (now delay : Nat) (timeouts : List Timeout) :
    (timer.restart now delay).Expected timeouts := Or.inl rfl

theorem Left.restart {timer : ElectionTimer} {timeouts : List Timeout} (h : timer.Left timeouts)
    (now delay : Nat) : (timer.restart now delay).Left timeouts :=
  h.mono (Nat.le_succ timer.generation)

theorem Left.cancel {timer : ElectionTimer} {timeouts : List Timeout} (h : timer.Left timeouts) :
    timer.cancel.Left timeouts :=
  h.mono (Nat.le_succ timer.generation)

/-- Nothing is to be expected of a timer that was cancelled. -/
theorem Left.not_expected_cancel {timer : ElectionTimer} {timeouts : List Timeout}
    (h : timer.Left timeouts) : ¬ timer.cancel.Expected timeouts := by
  rintro (hdue | ⟨timeout, hmem, hcurrent⟩)
  · cases hdue
  · have hle := h timeout hmem
    have heq : timer.generation + 1 = timeout.generation := eq_of_beq hcurrent
    omega

/-! ## Firing -/

/-- A timer that fires exchanges the running timer for a timeout that counts. -/
theorem expected_fire_iff (timer : ElectionTimer) (timeouts : List Timeout) :
    timer.fire.2.Expected (timeouts ++ timer.fire.1) ↔ timer.Expected timeouts := by
  obtain ⟨generation, _ | due⟩ := timer
  · simp [fire, Expected]
  · simp [fire, Expected, discard, isCurrent]

theorem Left.fire {timer : ElectionTimer} {timeouts : List Timeout} (h : timer.Left timeouts) :
    timer.fire.2.Left (timeouts ++ timer.fire.1) := by
  obtain ⟨generation, _ | due⟩ := timer
  · simpa [ElectionTimer.fire] using h
  · intro timeout hmem
    rcases List.mem_append.1 hmem with hold | hnew
    · exact h timeout hold
    · obtain rfl := List.mem_singleton.1 hnew
      exact Nat.le_refl generation

/-! ## Looking at timeouts -/

theorem Left.tail {timer : ElectionTimer} {timeout : Timeout} {rest : List Timeout}
    (h : timer.Left (timeout :: rest)) : timer.Left rest :=
  (List.forall_mem_cons.1 h).2

/-- A timeout that does not count is not missed. -/
theorem expected_cons_iff {timer : ElectionTimer} {timeout : Timeout} (rest : List Timeout)
    (h : ¬ timer.isCurrent timeout) :
    timer.Expected (timeout :: rest) ↔ timer.Expected rest := by
  simp [Expected, h]

/-- A timeout that counts was to be expected. -/
theorem expected_of_isCurrent {timer : ElectionTimer} {timeout : Timeout} {rest : List Timeout}
    (h : timer.isCurrent timeout) : timer.Expected (timeout :: rest) :=
  Or.inr ⟨timeout, List.mem_cons_self .., h⟩

end Quorum.ElectionTimer
