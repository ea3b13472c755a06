import Mathlib.Data.List.Nodup
import Quorum.Proofs.Timer

set_option autoImplicit false

/-! # When a timer fires

A timer is started, cancelled and thrown away while a clock goes on. What is due at an instant
happens while the clock shows it, before or after what somebody does with the timer at that instant:
a `settle` says which. So a start leads to one timeout at most, when its delay has run out, and it
does so if and only if nobody touches the timer before that.

A timeout counts until the timer is started or cancelled the next time. As each of the two opens a
generation of its own, also where nothing runs any more, never more than one timeout counts, and
none that was left before the timer was last cancelled. -/

namespace Quorum

/-! ## Runs of a timer -/

/-- What happens to a timer, or to the clock. -/
inductive TimerMove where
  /-- Start anew, to fire after `delay`. -/
  | restart (delay : Nat)
  /-- Stop without starting anew. -/
  | cancel
  /-- Stop for good. -/
  | discard
  /-- What is due at this instant happens. -/
  | settle
  /-- What is due at this instant happens if it has not happened yet, and the next one comes. -/
  | tick
  deriving DecidableEq, Repr

/-- Nothing is done to the timer. -/
def TimerMove.isWaiting : TimerMove → Bool
  | .settle => true
  | .tick => true
  | _ => false

/-- A new generation is opened. -/
def TimerMove.opens : TimerMove → Bool
  | .restart _ => true
  | .cancel => true
  | _ => false

/-- A timeout, and when it was left. -/
structure Firing where
  instant : Nat
  timeout : Timeout
  deriving DecidableEq, Repr

/-- A clock and a timer, with what the timer has left so far, oldest first. -/
structure TimerRun where
  now : Nat
  timer : ElectionTimer
  isDiscarded : Bool
  fired : List Firing
  deriving DecidableEq, Repr

namespace TimerRun

/-- A timer that was never started, at the beginning of time. -/
def initial : TimerRun := ⟨0, .idle, false, []⟩

/-- Let happen what is due at this instant. -/
def settle (r : TimerRun) : TimerRun :=
  let (left, timer) := r.timer.elapse r.now
  { r with timer, fired := r.fired ++ left.map (Firing.mk r.now) }

/-- One move. A timer that was discarded cannot be told anything any more. -/
def step (r : TimerRun) : TimerMove → TimerRun
  | .restart delay => if r.isDiscarded then r else { r with timer := r.timer.restart r.now delay }
  | .cancel => if r.isDiscarded then r else { r with timer := r.timer.cancel }
  | .discard => { r with timer := r.timer.discard, isDiscarded := true }
  | .settle => r.settle
  | .tick => { r.settle with now := r.now + 1 }

/-- A run after some more moves. -/
def after (r : TimerRun) (moves : List TimerMove) : TimerRun := moves.foldl step r

/-- What was left in one generation. -/
def firings (r : TimerRun) (generation : Nat) : List Firing :=
  r.fired.filter (·.timeout.generation = generation)

theorem after_cons (r : TimerRun) (move : TimerMove) (moves : List TimerMove) :
    r.after (move :: moves) = (r.step move).after moves := rfl

theorem after_append (r : TimerRun) (moves later : List TimerMove) :
    r.after (moves ++ later) = (r.after moves).after later := List.foldl_append

/-- The timer fires if it is due, and nothing happens if it is not. -/
theorem settle_cases (r : TimerRun) :
    (∃ due, r.timer.due = some due ∧ due ≤ r.now ∧
      r.settle =
        { r with
          timer := r.timer.discard
          fired := r.fired ++ [⟨r.now, ⟨r.timer.generation⟩⟩] }) ∨
    (∀ due ∈ r.timer.due, r.now < due) ∧ r.settle = r := by
  obtain ⟨now, ⟨generation, due⟩, isDiscarded, fired⟩ := r
  cases due with
  | none => exact Or.inr ⟨by simp, by simp [settle, ElectionTimer.elapse, ElectionTimer.isDue]⟩
  | some due =>
    by_cases hdue : due ≤ now
    · refine Or.inl ⟨due, rfl, hdue, ?_⟩
      simp [settle, ElectionTimer.elapse, ElectionTimer.isDue, ElectionTimer.fire, hdue]
    · refine Or.inr ⟨?_, by simp [settle, ElectionTimer.elapse, ElectionTimer.isDue, hdue]⟩
      rintro _ ⟨⟩
      exact Nat.not_le.1 hdue

theorem step_of_isWaiting {move : TimerMove} (h : move.isWaiting) (r : TimerRun) :
    r.step move = { r.settle with now := r.now + if move = .tick then 1 else 0 } := by
  cases move with
  | restart delay => cases h
  | cancel => cases h
  | discard => cases h
  | settle => rfl
  | tick => rfl

/-- What a move comes to: the timer is left to itself, it cannot be told anything any more, it opens
    a new generation, or it is discarded. -/
theorem step_cases (r : TimerRun) (move : TimerMove) :
    (move.isWaiting ∧
      r.step move = { r.settle with now := r.now + if move = .tick then 1 else 0 }) ∨
    (move.opens ∧ r.isDiscarded = true ∧ r.step move = r) ∨
    (move.opens ∧ r.isDiscarded = false ∧ ∃ timer, r.step move = { r with timer } ∧
      timer.generation = r.timer.generation + 1 ∧ ∀ due ∈ timer.due, r.now ≤ due) ∨
    (move = .discard ∧
      r.step move = { r with timer := r.timer.discard, isDiscarded := true }) := by
  cases move with
  | restart delay =>
    cases hd : r.isDiscarded with
    | true => exact Or.inr (Or.inl ⟨rfl, rfl, by simp [step, hd]⟩)
    | false =>
      refine Or.inr (Or.inr (Or.inl ⟨rfl, rfl, r.timer.restart r.now delay, ?_, rfl, ?_⟩))
      · simp [step, hd]
      · rintro _ ⟨⟩
        exact Nat.le_add_right ..
  | cancel =>
    cases hd : r.isDiscarded with
    | true => exact Or.inr (Or.inl ⟨rfl, rfl, by simp [step, hd]⟩)
    | false =>
      refine Or.inr (Or.inr (Or.inl ⟨rfl, rfl, r.timer.cancel, ?_, rfl, ?_⟩))
      · simp [step, hd]
      · rintro _ ⟨⟩
  | discard => exact Or.inr (Or.inr (Or.inr ⟨rfl, rfl⟩))
  | settle => exact Or.inl ⟨rfl, step_of_isWaiting rfl r⟩
  | tick => exact Or.inl ⟨rfl, step_of_isWaiting rfl r⟩

/-! ## Generations -/

theorem isDiscarded_step {r : TimerRun} {move : TimerMove}
    (h : (r.step move).isDiscarded = false) : r.isDiscarded = false := by
  rcases r.step_cases move with ⟨-, heq⟩ | ⟨-, -, heq⟩ | ⟨-, hd, -⟩ | ⟨-, heq⟩
  · rw [heq] at h
    exact h
  · rw [heq] at h
    exact h
  · exact hd
  · rw [heq] at h
    cases h

theorem isDiscarded_after {r : TimerRun} {moves : List TimerMove}
    (h : (r.after moves).isDiscarded = false) : r.isDiscarded = false := by
  induction moves generalizing r with
  | nil => exact h
  | cons move moves ih => exact isDiscarded_step (ih h)

theorem generation_settle (r : TimerRun) : r.settle.timer.generation = r.timer.generation := by
  rcases r.settle_cases with ⟨due, -, -, heq⟩ | ⟨-, heq⟩
  · rw [heq]
    rfl
  · rw [heq]

theorem generation_step {r : TimerRun} (h : r.isDiscarded = false) (move : TimerMove) :
    (r.step move).timer.generation = r.timer.generation + if move.opens then 1 else 0 := by
  cases move with
  | restart delay => simp [step, h, ElectionTimer.restart, TimerMove.opens]
  | cancel => simp [step, h, ElectionTimer.cancel, TimerMove.opens]
  | discard => rfl
  | settle => exact r.generation_settle
  | tick => exact r.generation_settle

theorem generation_le_step (r : TimerRun) (move : TimerMove) :
    r.timer.generation ≤ (r.step move).timer.generation := by
  rcases r.step_cases move with ⟨-, heq⟩ | ⟨-, -, heq⟩ | ⟨-, -, timer, heq, hnew, -⟩ | ⟨-, heq⟩
  · rw [heq]
    exact Nat.le_of_eq r.generation_settle.symm
  · exact Nat.le_of_eq (by rw [heq])
  · rw [heq]
    exact Nat.le_of_lt (Nat.lt_of_succ_le (Nat.le_of_eq hnew.symm))
  · rw [heq]
    exact Nat.le_refl _

theorem generation_le_after (r : TimerRun) (moves : List TimerMove) :
    r.timer.generation ≤ (r.after moves).timer.generation := by
  induction moves generalizing r with
  | nil => exact Nat.le_refl _
  | cons move moves ih => exact Nat.le_trans (r.generation_le_step move) (ih _)

/-- As many generations are opened as moves say so, as long as the timer is there. -/
theorem generation_after {r : TimerRun} {moves : List TimerMove}
    (h : (r.after moves).isDiscarded = false) :
    (r.after moves).timer.generation = r.timer.generation + moves.countP TimerMove.opens := by
  induction moves generalizing r with
  | nil => rfl
  | cons move moves ih =>
    have hr : r.isDiscarded = false := isDiscarded_step (isDiscarded_after h)
    have hrest := ih h
    rw [after_cons, hrest, generation_step hr, List.countP_cons]
    omega

/-! ## Starts that run out -/

/-- Some moves let a delay run out: as long as it lasts, and then until what is due happens, nothing
    is done to the timer. -/
def RunsOut (delay : Nat) (moves : List TimerMove) : Prop :=
  ∃ calm move rest, moves = calm ++ move :: rest ∧ (∀ m ∈ calm, m.isWaiting) ∧
    calm.count .tick = delay ∧ move.isWaiting

theorem not_runsOut_nil (delay : Nat) : ¬ RunsOut delay [] := by
  rintro ⟨calm, move, rest, heq, -⟩
  simp at heq

theorem not_runsOut_cons {move : TimerMove} (h : ¬ move.isWaiting) (delay : Nat)
    (moves : List TimerMove) : ¬ RunsOut delay (move :: moves) := by
  rintro ⟨calm, last, rest, heq, hcalm, -, hlast⟩
  cases calm with
  | nil =>
    cases heq
    exact h hlast
  | cons first calm =>
    cases heq
    exact h (hcalm move (List.mem_cons_self ..))

theorem runsOut_zero {move : TimerMove} (h : move.isWaiting) (moves : List TimerMove) :
    RunsOut 0 (move :: moves) :=
  ⟨[], move, moves, rfl, List.forall_mem_nil _, rfl, h⟩

/-- While a delay lasts, it gets shorter by the ticks of the clock. -/
theorem runsOut_cons_iff {move : TimerMove} (h : move.isWaiting) {delay : Nat} (hdelay : 0 < delay)
    (moves : List TimerMove) :
    RunsOut delay (move :: moves) ↔ RunsOut (delay - if move = .tick then 1 else 0) moves := by
  constructor
  · rintro ⟨calm, last, rest, heq, hcalm, hcount, hlast⟩
    cases calm with
    | nil =>
      simp at hcount
      omega
    | cons first calm =>
      cases heq
      refine ⟨calm, last, rest, rfl, (List.forall_mem_cons.1 hcalm).2, ?_, hlast⟩
      rw [List.count_cons] at hcount
      simp only [beq_iff_eq] at hcount
      omega
  · rintro ⟨calm, last, rest, rfl, hcalm, hcount, hlast⟩
    refine ⟨move :: calm, last, rest, rfl, List.forall_mem_cons.2 ⟨h, hcalm⟩, ?_, hlast⟩
    rw [List.count_cons]
    simp only [beq_iff_eq]
    split at hcount
    · next htick =>
      rw [if_pos htick]
      omega
    · next htick =>
      rw [if_neg htick]
      omega

/-! ## What fires -/

/-- The clock has not passed the instant at which the timer is due, and a timer that was discarded
    does not run. -/
structure InTime (r : TimerRun) : Prop where
  now_le : ∀ due ∈ r.timer.due, r.now ≤ due
  stopped : r.isDiscarded → r.timer.due = none

theorem inTime_initial : initial.InTime := ⟨by rintro _ ⟨⟩, fun _ => rfl⟩

theorem InTime.settle {r : TimerRun} (h : r.InTime) :
    r.settle.InTime ∧ ∀ due ∈ r.settle.timer.due, r.now < due := by
  rcases r.settle_cases with ⟨due, -, -, heq⟩ | ⟨hlt, heq⟩
  · rw [heq]
    exact ⟨⟨by rintro _ ⟨⟩, fun _ => rfl⟩, by rintro _ ⟨⟩⟩
  · rw [heq]
    exact ⟨h, hlt⟩

theorem InTime.step {r : TimerRun} (h : r.InTime) (move : TimerMove) : (r.step move).InTime := by
  rcases r.step_cases move with ⟨-, heq⟩ | ⟨-, -, heq⟩ | ⟨-, hd, timer, heq, -, hdue⟩ | ⟨-, heq⟩
  · have htick : (if move = .tick then 1 else 0) ≤ 1 := by split <;> decide
    rw [heq]
    refine ⟨fun due hdue => ?_, h.settle.1.stopped⟩
    exact Nat.le_trans (Nat.add_le_add_left htick r.now) (h.settle.2 due hdue)
  · rw [heq]
    exact h
  · rw [heq]
    refine ⟨hdue, fun hdiscarded => ?_⟩
    rw [hd] at hdiscarded
    cases hdiscarded
  · rw [heq]
    exact ⟨by rintro _ ⟨⟩, fun _ => rfl⟩

theorem InTime.after {r : TimerRun} (h : r.InTime) (moves : List TimerMove) :
    (r.after moves).InTime := by
  induction moves generalizing r with
  | nil => exact h
  | cons move moves ih => exact ih (h.step move)

/-- The timer runs, and some moves let it run out. -/
def Runs (r : TimerRun) (moves : List TimerMove) (firing : Firing) : Prop :=
  ∃ due, r.timer.due = some due ∧ RunsOut (due - r.now) moves ∧
    firing = ⟨due, ⟨r.timer.generation⟩⟩

/-- The timer is started in the course of some moves, and those that follow let it run out. -/
def Starts (r : TimerRun) (moves : List TimerMove) (firing : Firing) : Prop :=
  ∃ earlier delay later, moves = earlier ++ .restart delay :: later ∧
    (r.after earlier).isDiscarded = false ∧ RunsOut delay later ∧
    firing = ⟨(r.after earlier).now + delay, ⟨(r.after earlier).timer.generation + 1⟩⟩

/-- The first of some moves starts the timer, and those that follow let it run out. -/
def StartsAtOnce (r : TimerRun) (move : TimerMove) (moves : List TimerMove) (firing : Firing) :
    Prop :=
  ∃ delay, move = .restart delay ∧ r.isDiscarded = false ∧ RunsOut delay moves ∧
    firing = ⟨r.now + delay, ⟨r.timer.generation + 1⟩⟩

theorem not_starts_nil (r : TimerRun) (firing : Firing) : ¬ r.Starts [] firing := by
  rintro ⟨earlier, delay, later, heq, -⟩
  simp at heq

theorem starts_cons_iff (r : TimerRun) (move : TimerMove) (moves : List TimerMove)
    (firing : Firing) :
    r.Starts (move :: moves) firing ↔
      r.StartsAtOnce move moves firing ∨ (r.step move).Starts moves firing := by
  constructor
  · rintro ⟨earlier, delay, later, heq, hdiscarded, hout, hfiring⟩
    cases earlier with
    | nil =>
      cases heq
      exact Or.inl ⟨delay, rfl, hdiscarded, hout, hfiring⟩
    | cons first earlier =>
      cases heq
      exact Or.inr ⟨earlier, delay, later, rfl, hdiscarded, hout, hfiring⟩
  · rintro (⟨delay, rfl, hdiscarded, hout, hfiring⟩ |
      ⟨earlier, delay, later, rfl, hdiscarded, hout, hfiring⟩)
    · exact ⟨[], delay, moves, rfl, hdiscarded, hout, hfiring⟩
    · exact ⟨move :: earlier, delay, later, rfl, hdiscarded, hout, hfiring⟩

theorem not_runs_of_none {r : TimerRun} (h : r.timer.due = none) (moves : List TimerMove)
    (firing : Firing) : ¬ r.Runs moves firing := by
  rintro ⟨due, hdue, -⟩
  rw [h] at hdue
  cases hdue

/-- While somebody waits, what has fired or is going to fire stays the same. -/
theorem InTime.fired_or_runs_waiting {r : TimerRun} (h : r.InTime) {move : TimerMove}
    (hmove : move.isWaiting) (moves : List TimerMove) (firing : Firing) :
    firing ∈ (r.step move).fired ∨ (r.step move).Runs moves firing ↔
      firing ∈ r.fired ∨ r.Runs (move :: moves) firing := by
  rw [step_of_isWaiting hmove]
  rcases r.settle_cases with ⟨due, hdue, hle, heq⟩ | ⟨hlt, heq⟩
  · -- The timer is due, so it fires now.
    obtain rfl : due = r.now := Nat.le_antisymm hle (h.now_le due hdue)
    have hruns : r.Runs (move :: moves) firing ↔ firing = ⟨r.now, ⟨r.timer.generation⟩⟩ := by
      constructor
      · rintro ⟨due, hdue', -, hfiring⟩
        rw [hdue] at hdue'
        cases hdue'
        exact hfiring
      · intro hfiring
        refine ⟨r.now, hdue, ?_, hfiring⟩
        rw [Nat.sub_self]
        exact runsOut_zero hmove moves
    rw [heq, hruns]
    simp only [List.mem_append, List.mem_singleton]
    exact or_iff_left (not_runs_of_none rfl moves firing)
  · -- The timer does not run, or there is time left.
    rw [heq]
    refine or_congr_right (exists_congr fun due => and_congr_right fun hdue => ?_)
    have hleft : 0 < due - r.now := Nat.sub_pos_of_lt (hlt due hdue)
    rw [runsOut_cons_iff hmove hleft, Nat.sub_sub]

/-- What a move starts comes to what has fired or is going to fire, and it takes the place of what
    was going to. -/
theorem InTime.fired_or_runs_step {r : TimerRun} (h : r.InTime) (move : TimerMove)
    (moves : List TimerMove) (firing : Firing) :
    firing ∈ (r.step move).fired ∨ (r.step move).Runs moves firing ↔
      (firing ∈ r.fired ∨ r.Runs (move :: moves) firing) ∨
        r.StartsAtOnce move moves firing := by
  by_cases hmove : move.isWaiting
  · have hnot : ¬ r.StartsAtOnce move moves firing := by
      rintro ⟨delay, rfl, -⟩
      cases hmove
    rw [h.fired_or_runs_waiting hmove, or_iff_left hnot]
  · have hnot : ¬ r.Runs (move :: moves) firing := by
      rintro ⟨due, -, hout, -⟩
      exact not_runsOut_cons hmove _ _ hout
    rw [or_iff_left hnot]
    cases hd : r.isDiscarded with
    | true =>
      have hnone := h.stopped hd
      have hstart : ¬ r.StartsAtOnce move moves firing := by
        rintro ⟨delay, -, hfalse, -⟩
        rw [hd] at hfalse
        cases hfalse
      have hstep : (r.step move).fired = r.fired ∧ (r.step move).timer.due = none := by
        cases move with
        | restart delay => simp [TimerRun.step, hd, hnone]
        | cancel => simp [TimerRun.step, hd, hnone]
        | discard => exact ⟨rfl, rfl⟩
        | settle => exact absurd rfl hmove
        | tick => exact absurd rfl hmove
      rw [hstep.1, or_iff_left (not_runs_of_none hstep.2 moves firing), or_iff_left hstart]
    | false =>
      cases move with
      | restart delay =>
        refine or_congr (by simp [TimerRun.step, hd]) ?_
        simp only [Runs, StartsAtOnce, TimerRun.step, hd]
        constructor
        · rintro ⟨due, hdue, hout, hfiring⟩
          cases hdue
          exact ⟨delay, rfl, trivial, by simpa using hout, hfiring⟩
        · rintro ⟨_, ⟨⟩, -, hout, hfiring⟩
          exact ⟨r.now + delay, rfl, by simpa using hout, hfiring⟩
      | cancel =>
        have hstart : ¬ r.StartsAtOnce .cancel moves firing := by
          rintro ⟨delay, ⟨⟩, -⟩
        simp only [TimerRun.step, hd]
        rw [or_iff_left hstart]
        exact or_iff_left (not_runs_of_none rfl moves firing)
      | discard =>
        have hstart : ¬ r.StartsAtOnce .discard moves firing := by
          rintro ⟨delay, ⟨⟩, -⟩
        rw [or_iff_left hstart]
        exact or_iff_left (not_runs_of_none rfl moves firing)
      | settle => exact absurd rfl hmove
      | tick => exact absurd rfl hmove

/-- What has fired after some moves had fired before, or was started before or in their course and
    has run out. -/
theorem InTime.mem_fired_after_iff {r : TimerRun} (h : r.InTime) (moves : List TimerMove)
    (firing : Firing) :
    firing ∈ (r.after moves).fired ↔
      (firing ∈ r.fired ∨ r.Runs moves firing) ∨ r.Starts moves firing := by
  induction moves generalizing r with
  | nil =>
    have hruns : ¬ r.Runs [] firing := by
      rintro ⟨due, -, hout, -⟩
      exact not_runsOut_nil _ hout
    rw [or_iff_left hruns, or_iff_left (r.not_starts_nil firing)]
    rfl
  | cons move moves ih =>
    rw [after_cons, ih (h.step move), h.fired_or_runs_step, starts_cons_iff, or_assoc]

/-! ## Generations in order -/

/-- Timeouts were left in the order of their generations, none is ahead of the timer, and none was
    left in the present generation yet if the timer runs. -/
structure Ordered (r : TimerRun) : Prop where
  increasing : r.fired.Pairwise fun a b => a.timeout.generation < b.timeout.generation
  left : ∀ f ∈ r.fired, f.timeout.generation ≤ r.timer.generation
  ahead : r.timer.due ≠ none → ∀ f ∈ r.fired, f.timeout.generation < r.timer.generation

theorem ordered_initial : initial.Ordered :=
  ⟨List.Pairwise.nil, List.forall_mem_nil _, fun _ => List.forall_mem_nil _⟩

theorem Ordered.settle {r : TimerRun} (h : r.Ordered) : r.settle.Ordered := by
  rcases r.settle_cases with ⟨due, hdue, -, heq⟩ | ⟨-, heq⟩
  · have hahead := h.ahead (by simp [hdue])
    rw [heq]
    refine ⟨?_, ?_, fun hnone => absurd rfl hnone⟩
    · refine List.pairwise_append.2 ⟨h.increasing, List.pairwise_singleton .., ?_⟩
      intro f hf f' hf'
      obtain rfl := List.mem_singleton.1 hf'
      exact hahead f hf
    · intro f hf
      rcases List.mem_append.1 hf with hold | hnew
      · exact h.left f hold
      · obtain rfl := List.mem_singleton.1 hnew
        exact Nat.le_refl _
  · rw [heq]
    exact h

/-- A new generation is ahead of everything. -/
theorem Ordered.opened {r : TimerRun} (h : r.Ordered) {timer : ElectionTimer}
    (htimer : timer.generation = r.timer.generation + 1) : { r with timer }.Ordered := by
  have hlt : ∀ f ∈ r.fired, f.timeout.generation < timer.generation := by
    intro f hf
    rw [htimer]
    exact Nat.lt_succ_of_le (h.left f hf)
  exact ⟨h.increasing, fun f hf => Nat.le_of_lt (hlt f hf), fun _ => hlt⟩

theorem Ordered.step {r : TimerRun} (h : r.Ordered) (move : TimerMove) : (r.step move).Ordered := by
  rcases r.step_cases move with ⟨-, heq⟩ | ⟨-, -, heq⟩ | ⟨-, -, timer, heq, hnew, -⟩ | ⟨-, heq⟩
  · rw [heq]
    exact ⟨h.settle.increasing, h.settle.left, h.settle.ahead⟩
  · rw [heq]
    exact h
  · rw [heq]
    exact h.opened hnew
  · rw [heq]
    exact ⟨h.increasing, h.left, fun hnone => absurd rfl hnone⟩

theorem Ordered.after {r : TimerRun} (h : r.Ordered) (moves : List TimerMove) :
    (r.after moves).Ordered := by
  induction moves generalizing r with
  | nil => exact h
  | cons move moves ih => exact ih (h.step move)

/-- In one generation at most one timeout is left. -/
theorem Ordered.eq_of_generation_eq {r : TimerRun} (h : r.Ordered) {f f' : Firing}
    (hf : f ∈ r.fired) (hf' : f' ∈ r.fired)
    (heq : f.timeout.generation = f'.timeout.generation) : f = f' := by
  have hnodup : (r.fired.map fun f => f.timeout.generation).Nodup :=
    List.pairwise_map.2 (h.increasing.imp Nat.ne_of_lt)
  exact List.inj_on_of_nodup_map hnodup hf hf' heq

theorem Ordered.firings_eq {r : TimerRun} (h : r.Ordered) {f : Firing} (hf : f ∈ r.fired) :
    r.firings f.timeout.generation = [f] := by
  have hnodup : r.fired.Nodup := by
    refine h.increasing.imp ?_
    rintro a _ hlt rfl
    exact Nat.lt_irrefl _ hlt
  have hperm : (r.firings f.timeout.generation).Perm [f] := by
    refine (List.perm_ext_iff_of_nodup (hnodup.filter _) (List.nodup_singleton f)).2 fun f' => ?_
    rw [List.mem_singleton]
    constructor
    · intro hf'
      obtain ⟨hmem, hgeneration⟩ := List.mem_filter.1 hf'
      exact h.eq_of_generation_eq hmem hf (of_decide_eq_true hgeneration)
    · rintro rfl
      exact List.mem_filter.2 ⟨hf, decide_eq_true rfl⟩
  exact List.perm_singleton.1 hperm

/-- A move leaves timeouts of the generation in which it leaves the timer. -/
theorem mem_fired_step {r : TimerRun} {move : TimerMove} {f : Firing}
    (h : f ∈ (r.step move).fired) :
    f ∈ r.fired ∨ f.timeout.generation = (r.step move).timer.generation := by
  rcases r.step_cases move with ⟨-, heq⟩ | ⟨-, -, heq⟩ | ⟨-, -, timer, heq, -⟩ | ⟨-, heq⟩
  · rw [heq] at h ⊢
    rcases r.settle_cases with ⟨due, -, -, hfires⟩ | ⟨-, hfires⟩
    · rw [hfires] at h ⊢
      refine (List.mem_append.1 h).imp_right fun hnew => ?_
      rw [List.mem_singleton.1 hnew]
      rfl
    · rw [hfires] at h
      exact Or.inl h
  · rw [heq] at h
    exact Or.inl h
  · rw [heq] at h
    exact Or.inl h
  · rw [heq] at h
    exact Or.inl h

/-- What is left in the generation that a start opens is left because its delay runs out. -/
theorem mem_fired_restart_iff {r : TimerRun} (hr : r.Ordered) (hd : r.isDiscarded = false)
    (delay : Nat) (later : List TimerMove) (hin : (r.step (.restart delay)).InTime) (f : Firing) :
    f ∈ ((r.step (.restart delay)).after later).fired ∧
        f.timeout.generation = r.timer.generation + 1 ↔
      RunsOut delay later ∧ f = ⟨r.now + delay, ⟨r.timer.generation + 1⟩⟩ := by
  have hopened : r.step (.restart delay) = { r with timer := r.timer.restart r.now delay } := by
    simp [step, hd]
  rw [hin.mem_fired_after_iff, hopened]
  constructor
  · rintro ⟨(hfired | ⟨due, hdue, hout, rfl⟩) | ⟨earlier, _, _, -, -, -, rfl⟩, hgeneration⟩
    · have hle := hr.left f hfired
      omega
    · cases hdue
      exact ⟨by simpa using hout, rfl⟩
    · have hle := generation_le_after { r with timer := r.timer.restart r.now delay } earlier
      simp only [ElectionTimer.restart] at hle hgeneration
      omega
  · rintro ⟨hout, rfl⟩
    exact ⟨Or.inl (Or.inr ⟨r.now + delay, rfl, by simpa using hout, rfl⟩), rfl⟩

/-! ## What a timer promises -/

/-- What becomes of what is started, and which timeouts count. -/
structure Keeps (moves : List TimerMove) : Prop where
  /-- A start whose delay runs out leaves one timeout, at the instant when it has run out. -/
  fires : ∀ earlier delay later, moves = earlier ++ .restart delay :: later →
    (initial.after earlier).isDiscarded = false → RunsOut delay later →
    (initial.after moves).firings ((initial.after earlier).timer.generation + 1) =
      [⟨(initial.after earlier).now + delay, ⟨(initial.after earlier).timer.generation + 1⟩⟩]
  /-- A start whose delay does not run out leaves none. -/
  fires_not : ∀ earlier delay later, moves = earlier ++ .restart delay :: later →
    (initial.after earlier).isDiscarded = false → ¬ RunsOut delay later →
    (initial.after moves).firings ((initial.after earlier).timer.generation + 1) = []
  /-- There are no other timeouts. -/
  started : ∀ f ∈ (initial.after moves).fired, initial.Starts moves f
  /-- They come in the order of their generations. -/
  increasing : (initial.after moves).fired.Pairwise fun a b =>
    a.timeout.generation < b.timeout.generation
  /-- A timeout counts from when it is left until the timer is started or cancelled again. -/
  current_iff : ∀ earlier move later f, moves = earlier ++ move :: later →
    f ∉ (initial.after earlier).fired → f ∈ ((initial.after earlier).step move).fired →
    (initial.after moves).isDiscarded = false →
    ((initial.after moves).timer.isCurrent f.timeout ↔ ∀ m ∈ later, ¬ m.opens)
  /-- No two of them count at once. -/
  current_unique : ∀ f ∈ (initial.after moves).fired, ∀ f' ∈ (initial.after moves).fired,
    (initial.after moves).timer.isCurrent f.timeout →
    (initial.after moves).timer.isCurrent f'.timeout → f = f'
  /-- After the timer was cancelled none counts but one of a later start. -/
  current_restarted : ∀ earlier later, moves = earlier ++ .cancel :: later →
    (initial.after earlier).isDiscarded = false → ∀ f ∈ (initial.after moves).fired,
    (initial.after moves).timer.isCurrent f.timeout →
    ((initial.after earlier).step .cancel).Starts later f

/-- Every timer keeps its promises, whatever is done to it and whenever. -/
theorem keeps_promises (moves : List TimerMove) : Keeps moves where
  fires := by
    rintro earlier delay later rfl hd hout
    have hordered := ordered_initial.after earlier
    have hin := (inTime_initial.after earlier).step (.restart delay)
    have hmem := (mem_fired_restart_iff hordered hd delay later hin _).2 ⟨hout, rfl⟩
    rw [after_append, after_cons]
    exact ((hordered.step _).after later).firings_eq hmem.1
  fires_not := by
    rintro earlier delay later rfl hd hout
    have hordered := ordered_initial.after earlier
    have hin := (inTime_initial.after earlier).step (.restart delay)
    refine List.filter_eq_nil_iff.2 fun f hf hgeneration => hout ?_
    rw [after_append, after_cons] at hf
    exact ((mem_fired_restart_iff hordered hd delay later hin f).1
      ⟨hf, of_decide_eq_true hgeneration⟩).1
  started := by
    intro f hf
    rcases (inTime_initial.mem_fired_after_iff moves f).1 hf with (hfired | hruns) | hstarts
    · cases hfired
    · exact absurd hruns (not_runs_of_none rfl moves f)
    · exact hstarts
  increasing := (ordered_initial.after moves).increasing
  current_iff := by
    rintro earlier move later f rfl hnew hf hd
    have hgeneration := (mem_fired_step hf).resolve_left hnew
    rw [after_append, after_cons] at hd ⊢
    have hcount := generation_after hd
    rw [ElectionTimer.isCurrent, beq_iff_eq, hcount, hgeneration, Nat.add_eq_left,
      List.countP_eq_zero]
  current_unique := by
    intro f hf f' hf' hcurrent hcurrent'
    have heq : f.timeout.generation = f'.timeout.generation :=
      (eq_of_beq hcurrent).symm.trans (eq_of_beq hcurrent')
    exact (ordered_initial.after moves).eq_of_generation_eq hf hf' heq
  current_restarted := by
    rintro earlier later rfl hd f hf hcurrent
    have hordered := ordered_initial.after earlier
    have hin := (inTime_initial.after earlier).step .cancel
    have hopened : (initial.after earlier).step .cancel =
        { initial.after earlier with timer := (initial.after earlier).timer.cancel } := by
      simp [step, hd]
    rw [after_append, after_cons] at hf hcurrent
    have hlt : (initial.after earlier).timer.generation < f.timeout.generation := by
      calc (initial.after earlier).timer.generation
          < ((initial.after earlier).step .cancel).timer.generation := by
            rw [hopened]
            exact Nat.lt_succ_self _
        _ ≤ (((initial.after earlier).step .cancel).after later).timer.generation :=
            generation_le_after _ later
        _ = f.timeout.generation := eq_of_beq hcurrent
    rcases (hin.mem_fired_after_iff later f).1 hf with (hfired | hruns) | hstarts
    · rw [hopened] at hfired
      exact absurd (hordered.left f hfired) (Nat.not_le.2 hlt)
    · rw [hopened] at hruns
      exact absurd hruns (not_runs_of_none rfl later f)
    · exact hstarts

/-- The clock alone does not tell what becomes of a start: the timer may have fired already when
    somebody comes to it at the instant at which its delay runs out. -/
theorem not_forall_firings_eq_nil :
    ¬ ∀ (earlier between later : List TimerMove) (delay : Nat) (move : TimerMove),
      (initial.after earlier).isDiscarded = false → ¬ move.isWaiting →
      (initial.after (earlier ++ .restart delay :: between)).now ≤
        (initial.after earlier).now + delay →
      (initial.after (earlier ++ .restart delay :: (between ++ move :: later))).firings
        ((initial.after earlier).timer.generation + 1) = [] := by
  intro hsilent
  have hfired : (initial.after [.restart 2, .tick, .tick, .settle, .restart 2]).firings 1 =
      [⟨2, ⟨1⟩⟩] := by decide
  have hnone := hsilent [] [.tick, .tick, .settle] [] 2 (.restart 2) rfl (by decide) (by decide)
  cases hfired.symm.trans hnone

end TimerRun

end Quorum
