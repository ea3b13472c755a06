import Quorum.Proofs.Server.Cases
import Quorum.Proofs.Server.Promises

set_option autoImplicit false

/-! # The mode of a server and the rest of it

What role a server has, what its ballot says, which leader it knows and what its timer does are kept
in four places, and they always agree. It follows that no timeout is ever handed to a leader, that a
candidate that has won is never refused, and that no server is stuck: unless it was shut down there
is always a loop that runs, or a timeout to come that makes it go on. The one exception is a
candidate in the last term of 64 bits, whose loop dies of the sum. -/

namespace Quorum.Server

variable {σ μ : Type} [Storage σ] [StateMachine μ] {s : Server σ μ}

/-! ## Runs -/

/-- The server after some events. -/
def after (s : Server σ μ) (events : List (Clock × Event)) : Server σ μ :=
  events.foldl (fun s (clock, event) => (s.step clock event).server) s

theorem Reachable.after (h : s.Reachable) (events : List (Clock × Event)) :
    (s.after events).Reachable := by
  induction events generalizing s with
  | nil => exact h
  | cons first events ih =>
    obtain ⟨clock, event⟩ := first
    exact ih (.step clock event h)

/-! ## Agreement -/

/-- Role, ballot, known leader and timer of a server agree. -/
structure ModesAgree (s : Server σ μ) : Prop where
  /-- A leader leads the present term, has voted for itself, knows itself as the leader, and has
      neither a timer that runs nor a timeout that counts. -/
  leads : ∀ leader, s.role = .leader leader →
    s.term = leader.term ∧ s.durable.vote = some s.id ∧ s.volatile.leader = some s.id ∧
      s.timer.due = none ∧ ∀ timeout ∈ s.timeouts, ¬ s.timer.isCurrent timeout
  /-- Who counts the votes of a term is in this term, has voted for itself and knows no leader. -/
  counts : ∀ candidate term tally, s.role = .candidate candidate →
    candidate.phase = .counting term tally →
    s.term = term ∧ s.durable.vote = some s.id ∧ s.volatile.leader = none
  /-- A timeout that is handed on goes to no leader. -/
  handsOn : ∀ timeout rest, s.timeouts = timeout :: rest → s.timer.isCurrent timeout →
    s.mode ≠ .leader
  /-- A loop that is not to end and finds its round won is in the term of the round still, and the
      server becomes the leader of this term. -/
  wins : ∀ candidate term tally, s.role = .candidate candidate →
    candidate.phase = .counting term tally → candidate.stopped = false →
    tally.largestTerm ≤ term → tally.isWon s.config.clusterSize →
    s.term = term ∧ ∀ clock branch,
      (s.step clock (.turn branch)).server.role = .leader (.fresh term false)

/-- Role, ballot, known leader and timer agree at all times. -/
theorem modes_agree (h : s.Reachable) : s.ModesAgree := by
  have horder := h.inOrder
  constructor
  · intro leader hrole
    obtain ⟨-, hballot, hknown, huntimed, -⟩ := horder.leader hrole
    have hdue : s.timer.due = none := by
      cases hdue : s.timer.due with
      | none => rfl
      | some due => exact absurd (Or.inl (by rw [hdue]; rfl)) huntimed
    refine ⟨congrArg Ballot.term hballot, congrArg Ballot.vote hballot, hknown, hdue, ?_⟩
    exact fun timeout hmem hcurrent => huntimed (Or.inr ⟨timeout, hmem, hcurrent⟩)
  · intro candidate term tally hrole hphase
    obtain ⟨hballot, hknown⟩ := (horder.candidate hrole).counting term tally hphase
    exact ⟨congrArg Ballot.term hballot, congrArg Ballot.vote hballot, hknown⟩
  · intro timeout rest htimeouts hcurrent hmode
    cases hrole : s.role with
    | leader leader =>
      have huntimed := (horder.leader hrole).untimed
      rw [htimeouts] at huntimed
      exact huntimed (ElectionTimer.expected_of_isCurrent hcurrent)
    | _ => simp [Server.mode, hrole, Role.mode] at hmode
  · intro candidate term tally hrole hphase hstopped hlargest hwon
    have hcandidate := horder.candidate hrole
    have hup : s.isShutDown = false := hcandidate.stopped.symm.trans hstopped
    refine ⟨congrArg Ballot.term (hcandidate.counting term tally hphase).1, fun clock branch => ?_⟩
    show (s.runRole clock branch).2.role = _
    simp only [Server.runRole, hrole, Server.candidateTurn, hstopped, hphase, Server.judgeRound,
      Nat.not_lt.2 hlargest, hwon, Bool.false_eq_true, if_false, if_true]
    rw [becomeLeader_eq horder hrole hphase hup]
    show Role.leader (.fresh term s.isShutDown) = _
    rw [hup]

/-- Server 1 of three stands for election and gets the vote of server 2. -/
def campaign : List (Clock × Event) :=
  [(⟨1, 1⟩, .timerFires), (⟨1, 1⟩, .takeTimeout), (⟨1, 1⟩, .turn .stop),
    (⟨2, 1⟩, .voteResult 1 (.ok ⟨1, true⟩))]

/-- It has a round of term 1 open and then leads this term, without a timer. -/
theorem modes_agree_campaign :
    let candidate := (newcomer []).after campaign
    let leader := (candidate.step ⟨2, 1⟩ (.turn .stop)).server
    candidate.role = .candidate ⟨.counting 1 ⟨2, 1, 1, 1⟩, false, false⟩ ∧ candidate.ModesAgree ∧
      leader.role = .leader ⟨1, .starting, false, false⟩ ∧ leader.ModesAgree :=
  have hcandidate := (reachable_newcomer []).after campaign
  ⟨rfl, modes_agree hcandidate, rfl, modes_agree (.step ⟨2, 1⟩ (.turn .stop) hcandidate)⟩

/-! ## No server is stuck -/

/-- There is a loop that runs, or a timeout to come, that makes the server go on. -/
def Alive (s : Server σ μ) : Prop :=
  match s.role with
  | .follower => s.timer.Expected s.timeouts
  | .candidate candidate =>
      candidate.stopped = false ∧ candidate.phase ≠ .ended ∧
        (candidate.phase = .starting ∨ candidate.timedOut ∨ s.timer.Expected s.timeouts)
  | .leader leader => leader.stopped = false ∧ leader.phase ≠ .ended

/-- The server is a candidate for which no term is left, and its loop has ended. -/
def IsSpent (s : Server σ μ) : Prop :=
  wordLimit ≤ s.term + 1 ∧
    ∃ candidate, s.role = .candidate candidate ∧ candidate.phase = .ended

/-- A server that was not shut down is never stuck, whatever it was told and whatever its disk has
    refused, unless it is a candidate for which no term is left. -/
theorem never_stuck (h : s.Reachable) (hup : s.isShutDown = false) : s.Alive ∨ s.IsSpent := by
  have horder := h.inOrder
  unfold Alive IsSpent
  cases hrole : s.role with
  | follower => exact Or.inl (horder.follower hrole hup)
  | candidate candidate =>
    obtain ⟨hstopped, -, hlive, hwaits⟩ := horder.candidate hrole
    by_cases hended : candidate.phase = .ended
    · exact Or.inr ⟨hlive hup hended, candidate, rfl, hended⟩
    · refine Or.inl ⟨hstopped.trans hup, hended, ?_⟩
      by_cases hstarting : candidate.phase = .starting
      · exact Or.inl hstarting
      · exact Or.inr (hwaits hup hstarting hended)
  | leader leader =>
    obtain ⟨hstopped, -, -, -, hlive⟩ := horder.leader hrole
    exact Or.inl ⟨hstopped.trans hup, hlive hup⟩

/-- The disk refuses the new term, so server 1 cannot stand for election. -/
def refused : Server (Fated Contents) KeyValue.Store :=
  (newcomer [true]).after [(⟨1, 1⟩, .timerFires), (⟨1, 1⟩, .takeTimeout), (⟨1, 1⟩, .turn .stop)]

/-- It is a follower again, and its timer runs. -/
theorem never_stuck_refused :
    refused.mode = .follower ∧ refused.term = 0 ∧ refused.isShutDown = false ∧ refused.Alive :=
  ⟨rfl, rfl, rfl,
    (never_stuck ((reachable_newcomer [true]).after _) rfl).resolve_right
      fun ⟨_, _, hrole, _⟩ => nomatch hrole⟩

/-- Server 1 is asked for its vote in the last term of 64 bits. Nobody tells it more, and it stands
    for election. -/
def spent : Server (Fated Contents) KeyValue.Store :=
  (newcomer []).after
    [(⟨0, 1⟩, .requestVote ⟨wordLimit - 1, ⟨2⟩, ⟨0, 0⟩⟩), (⟨1, 1⟩, .timerFires),
      (⟨1, 1⟩, .takeTimeout), (⟨1, 1⟩, .turn .stop)]

/-- It is a candidate without a loop and without a timer, and never does anything by itself. -/
theorem not_alive_spent :
    spent.Reachable ∧ spent.isShutDown = false ∧ spent.term = wordLimit - 1 ∧
      spent.role = .candidate ⟨.ended, false, false⟩ ∧ spent.timer.due = none ∧
      spent.timeouts = [] ∧ ¬ spent.Alive ∧ ∀ now, spent.pending now = [] :=
  ⟨(reachable_newcomer []).after _, rfl, rfl, rfl, rfl, rfl, fun h => h.2.1 rfl, fun _ => rfl⟩

omit [Storage σ] [StateMachine μ] in
/-- Whoever waits for a timeout has something to do at some instant. -/
theorem exists_pending_of_expected (hup : s.isShutDown = false)
    (h : s.timer.Expected s.timeouts) : ∃ now, s.pending now ≠ [] := by
  rcases h with hdue | ⟨timeout, hmem, -⟩
  · obtain ⟨due, hdue⟩ := Option.isSome_iff_exists.1 hdue
    have hfires : s.timer.isDue due := by simp [ElectionTimer.isDue, hdue]
    exact ⟨due, by simp [Server.pending, hfires]⟩
  · have htimeouts : s.timeouts ≠ [] := List.ne_nil_of_mem hmem
    exact ⟨0, by simp [Server.pending, hup, htimeouts]⟩

omit [Storage σ] [StateMachine μ] in
/-- A branch that the present loop may take is something to do. -/
theorem pending_ne_nil_of_branches {now : Nat} (h : s.branches now s.role ≠ []) :
    s.pending now ≠ [] := by
  unfold Server.pending
  exact List.append_ne_nil_of_right_ne_nil _ (mt List.map_eq_nil_iff.1 h)

omit [Storage σ] [StateMachine μ] in
/-- What keeps a server from being stuck makes it act by itself sooner or later. -/
theorem Alive.exists_pending (h : s.Alive) (hup : s.isShutDown = false) :
    ∃ now, s.pending now ≠ [] := by
  unfold Alive at h
  cases hrole : s.role with
  | follower =>
    rw [hrole] at h
    exact exists_pending_of_expected hup h
  | candidate candidate =>
    rw [hrole] at h
    have hbusy : s.candidateIsReady candidate → s.pending 0 ≠ [] := fun hready =>
      pending_ne_nil_of_branches (by simp [Server.branches, hrole, hready])
    obtain ⟨-, hlive, hstarting | htimedOut | hexpected⟩ := h
    · exact ⟨0, hbusy (by simp [candidateIsReady, hstarting])⟩
    · refine ⟨0, hbusy ?_⟩
      unfold candidateIsReady
      split
      · next hended => exact absurd hended hlive
      · rfl
      · simp [htimedOut]
      · simp [htimedOut]
    · exact exists_pending_of_expected hup hexpected
  | leader leader =>
    rw [hrole] at h
    obtain ⟨-, hlive⟩ := h
    cases hphase : leader.phase with
    | ended => exact absurd hphase hlive
    | starting =>
      exact ⟨0, pending_ne_nil_of_branches
        (by simp [Server.branches, hrole, leaderBranches, hphase])⟩
    | running peers nextBeat =>
      exact ⟨nextBeat, pending_ne_nil_of_branches
        (by simp [Server.branches, hrole, leaderBranches, hphase])⟩

end Quorum.Server
