import Quorum.Configuration

set_option autoImplicit false

/-! # The election timer

A timer that fires once after it is started, unless it is restarted or cancelled before. Firing
only leaves a `Timeout` for somebody else to find. As the timer may have moved on until then, each
start and each cancellation opens a new generation, a timeout carries the generation in which its
timer was started, and it counts only as long as this generation lasts. -/

namespace Quorum

/-- What a timer leaves behind when it fires. -/
structure Timeout where
  generation : Nat
  deriving DecidableEq, Repr

/-- A timer: how often it was started or cancelled, and when it fires if it is running. -/
structure ElectionTimer where
  generation : Nat
  due : Option Nat
  deriving DecidableEq, Repr

namespace ElectionTimer

/-- A timer that was never started. -/
def idle : ElectionTimer := ⟨0, none⟩

/-- Start anew, to fire after `delay`. -/
def restart (timer : ElectionTimer) (now delay : Nat) : ElectionTimer :=
  ⟨timer.generation + 1, some (now + delay)⟩

/-- Stop without starting anew. -/
def cancel (timer : ElectionTimer) : ElectionTimer := ⟨timer.generation + 1, none⟩

/-- Stop for good: what was started never fires, and what has fired stays as it is. -/
def discard (timer : ElectionTimer) : ElectionTimer := { timer with due := none }

/-- Whether nothing has happened to the timer since it was started for this timeout. -/
def isCurrent (timer : ElectionTimer) (timeout : Timeout) : Bool :=
  timer.generation == timeout.generation

/-- Whether the timer runs out at `now` or before. -/
def isDue (timer : ElectionTimer) (now : Nat) : Bool := timer.due.any (· ≤ now)

/-- The timeout that a running timer leaves, and the timer after that. -/
def fire (timer : ElectionTimer) : List Timeout × ElectionTimer :=
  match timer.due with
  | some _ => ([⟨timer.generation⟩], timer.discard)
  | none => ([], timer)

/-- What a timer leaves up to the instant `now`, and the timer then. -/
def elapse (timer : ElectionTimer) (now : Nat) : List Timeout × ElectionTimer :=
  if timer.isDue now then timer.fire else ([], timer)

end ElectionTimer

/-- The instant of a step, and the delay drawn for a timer that it may start. -/
structure Clock where
  now : Nat
  delay : Nat
  deriving DecidableEq, Repr

/-- Start a timer with the delay that was drawn. -/
def Clock.restart (clock : Clock) (timer : ElectionTimer) : ElectionTimer :=
  timer.restart clock.now clock.delay

/-- A delay that an interval allows. -/
def Interval.Allows (interval : Interval) (delay : Nat) : Prop :=
  interval.minimum ≤ delay ∧ delay ≤ interval.maximum

instance (interval : Interval) (delay : Nat) : Decidable (interval.Allows delay) := by
  unfold Interval.Allows; infer_instance

/-- The delay half way between the shortest and the longest. A draw at random is as likely to be
    shorter as it is to be longer, so this one stands for a draw whose outcome is not known. -/
def Interval.middle (interval : Interval) : Nat := (interval.minimum + interval.maximum) / 2

end Quorum
