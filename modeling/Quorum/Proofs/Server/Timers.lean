import Quorum.Server.Step

set_option autoImplicit false

/-! # What the election timer has no part in

The timer is started and cancelled in many places, and looked at in one: whoever takes a timeout
asks the timer whether it is current. So two servers that differ in nothing but their timers, and in
the timeouts that these have left, answer every request alike, their loops have the same turns, and
they still differ in nothing else afterwards. -/

namespace Quorum

variable {σ μ : Type}

namespace Server

/-- The servers are the same but for their timers and what these have left. -/
def Resembles (s s' : Server σ μ) : Prop :=
  ∃ timer timeouts, s' = { s with timer, timeouts }

variable {s s' : Server σ μ}

theorem Resembles.role (h : s.Resembles s') : s'.role = s.role := by
  obtain ⟨timer, timeouts, rfl⟩ := h
  rfl

theorem Resembles.retired (h : s.Resembles s') : s'.retired = s.retired := by
  obtain ⟨timer, timeouts, rfl⟩ := h
  rfl

theorem Resembles.log (h : s.Resembles s') : s'.log = s.log := by
  obtain ⟨timer, timeouts, rfl⟩ := h
  rfl

theorem Resembles.volatile (h : s.Resembles s') : s'.volatile = s.volatile := by
  obtain ⟨timer, timeouts, rfl⟩ := h
  rfl

theorem Resembles.isShutDown (h : s.Resembles s') : s'.isShutDown = s.isShutDown := by
  obtain ⟨timer, timeouts, rfl⟩ := h
  rfl

theorem Resembles.withRole (h : s.Resembles s') (role : Role) :
    ({ s with role } : Server σ μ).Resembles { s' with role } := by
  obtain ⟨timer, timeouts, rfl⟩ := h
  exact ⟨timer, timeouts, rfl⟩

theorem Resembles.withRetired (h : s.Resembles s') (retired : List Role) :
    ({ s with retired } : Server σ μ).Resembles { s' with retired } := by
  obtain ⟨timer, timeouts, rfl⟩ := h
  exact ⟨timer, timeouts, rfl⟩

theorem Resembles.withVolatile (h : s.Resembles s') (volatile : VolatileState) :
    ({ s with volatile } : Server σ μ).Resembles { s' with volatile } := by
  obtain ⟨timer, timeouts, rfl⟩ := h
  exact ⟨timer, timeouts, rfl⟩

/-! ## Giving up a role -/

theorem Resembles.becomeFollower (h : s.Resembles s') (clock : Clock) :
    (s.becomeFollower clock).Resembles (s'.becomeFollower clock) := by
  obtain ⟨timer', timeouts', rfl⟩ := h
  obtain ⟨config, peers, durable, volatile, machine, timer, timeouts, role, retired, down⟩ := s
  have hretire : ∀ role,
      (Server.mk config peers durable volatile machine timer' timeouts' role retired down).retire
        role =
      { Server.retire ⟨config, peers, durable, volatile, machine, timer, timeouts, role, retired,
          down⟩ role with timer := timer', timeouts := timeouts' } := by
    intro role
    unfold Server.retire
    split <;> rfl
  cases role with
  | follower => exact ⟨timer', timeouts', rfl⟩
  | candidate candidate =>
    unfold Server.becomeFollower
    simp only [hretire]
    exact ⟨_, _, rfl⟩
  | leader leader =>
    unfold Server.becomeFollower
    simp only [hretire]
    exact ⟨_, _, rfl⟩

theorem Resembles.recover (h : s.Resembles s') (clock : Clock) :
    (s.recover clock).Resembles (s'.recover clock) := by
  unfold Server.recover
  rw [h.isShutDown]
  split
  · exact h
  · exact h.becomeFollower clock

theorem Resembles.stepDown [Storage σ] (h : s.Resembles s') (clock : Clock) (term : Nat) :
    (s.stepDown clock term).Alike Resembles (s'.stepDown clock term) := by
  obtain ⟨timer, timeouts, rfl⟩ := h
  unfold Server.stepDown
  simp only
  generalize s.durable.adoptTerm term = adopted
  obtain ⟨_ | _ | _, durable⟩ := adopted
  · exact ⟨rfl, timer, timeouts, rfl⟩
  · exact ⟨rfl, timer, timeouts, rfl⟩
  · refine ⟨rfl, ?_⟩
    exact Resembles.becomeFollower ⟨timer, timeouts, rfl⟩ clock

/-! ## Requests -/

variable [Storage σ]

theorem Resembles.decideVote (h : s.Resembles s') (request : VoteRequest) :
    (s.decideVote request).Alike Resembles (s'.decideVote request) := by
  obtain ⟨timer, timeouts, rfl⟩ := h
  unfold Server.decideVote
  simp only
  split
  · exact ⟨rfl, timer, timeouts, rfl⟩
  · generalize s.durable.grantVote request.term request.candidate request.last = decided
    obtain ⟨_ | granted, durable⟩ := decided <;> exact ⟨rfl, timer, timeouts, rfl⟩

theorem Resembles.answerVote (h : s.Resembles s') (clock : Clock) (request : VoteRequest) :
    (s.answerVote clock request).Alike Resembles (s'.answerVote clock request) := by
  have hdecided := h.decideVote request
  unfold Server.answerVote
  rw [h.role]
  cases s.role with
  | follower =>
    refine hdecided.andThen fun reply t t' ht => ⟨rfl, ?_⟩
    obtain ⟨timer, timeouts, rfl⟩ := ht
    show (if reply.granted then _ else t).Resembles (if reply.granted then _ else _)
    split <;> exact ⟨_, timeouts, rfl⟩
  | candidate candidate => exact hdecided
  | leader leader => exact ⟨rfl, h⟩

theorem Resembles.requestVote (h : s.Resembles s') (clock : Clock) (request : VoteRequest) :
    (s.requestVote clock request).Alike Resembles (s'.requestVote clock request) :=
  (h.stepDown clock request.term).andThen fun _ _ _ ht => ht.answerVote clock request

theorem Resembles.submit (h : s.Resembles s') (command : Bytes) :
    (s.submit command).Alike Resembles (s'.submit command) := by
  obtain ⟨timer', timeouts', rfl⟩ := h
  obtain ⟨config, peers, durable, volatile, machine, timer, timeouts, role, retired, down⟩ := s
  unfold Server.submit
  cases role with
  | leader leader =>
    simp only
    split
    · exact ⟨rfl, timer', timeouts', rfl⟩
    · generalize durable.appendCommand leader.term command = appended
      obtain ⟨_ | _ | entry, durable⟩ := appended <;> exact ⟨rfl, timer', timeouts', rfl⟩
  | _ => exact ⟨rfl, timer', timeouts', rfl⟩

omit [Storage σ] in
theorem Resembles.applyEntries [StateMachine μ] (h : s.Resembles s') :
    s.applyEntries.Alike Resembles s'.applyEntries := by
  obtain ⟨timer, timeouts, rfl⟩ := h
  exact ⟨rfl, timer, timeouts, rfl⟩

variable [StateMachine μ]

theorem Resembles.takeEntries (h : s.Resembles s') (clock : Clock) (request : AppendRequest) :
    (s.takeEntries clock request).Alike Resembles (s'.takeEntries clock request) := by
  obtain ⟨timer, timeouts, rfl⟩ := h
  unfold Server.takeEntries
  simp only
  split
  · exact ⟨rfl, timer, timeouts, rfl⟩
  · generalize s.durable.append request.entries request.prev = taken
    obtain ⟨_ | _ | ⟨lastNew, first⟩, durable⟩ := taken
    · exact ⟨rfl, _, timeouts, rfl⟩
    · exact ⟨rfl, _, timeouts, rfl⟩
    · simp only
      split
      · refine (Resembles.applyEntries ?_).andThen fun _ _ _ ht => ⟨rfl, ht⟩
        exact ⟨clock.restart timer, timeouts, rfl⟩
      · exact ⟨rfl, _, timeouts, rfl⟩

omit [StateMachine μ] in
theorem Resembles.concede (h : s.Resembles s') (clock : Clock) (term : Nat) :
    (s.concede clock term).Alike Resembles (s'.concede clock term) := by
  obtain ⟨timer, timeouts, rfl⟩ := h
  unfold Server.concede
  simp only
  generalize s.durable.adoptTerm term = adopted
  obtain ⟨_ | _, durable⟩ := adopted
  · exact ⟨rfl, timer, timeouts, rfl⟩
  · refine ⟨rfl, ?_⟩
    exact Resembles.becomeFollower ⟨timer, timeouts, rfl⟩ clock

theorem Resembles.answerEntries (h : s.Resembles s') (clock : Clock) (request : AppendRequest) :
    (s.answerEntries clock request).Alike Resembles (s'.answerEntries clock request) := by
  have hterm : s'.term = s.term ∧ s'.refuseEntries s.term = s.refuseEntries s.term := by
    obtain ⟨timer, timeouts, rfl⟩ := h
    exact ⟨rfl, rfl⟩
  unfold Server.answerEntries
  rw [h.role]
  cases s.role with
  | follower => exact h.takeEntries clock request
  | candidate candidate =>
    simp only [hterm.1, hterm.2]
    split
    · exact ⟨rfl, h⟩
    · exact (h.concede clock request.term).andThen fun _ _ _ ht => ht.takeEntries clock request
  | leader leader => exact ⟨rfl, h⟩

theorem Resembles.appendEntries (h : s.Resembles s') (clock : Clock) (request : AppendRequest) :
    (s.appendEntries clock request).Alike Resembles (s'.appendEntries clock request) :=
  (h.stepDown clock request.term).andThen fun _ _ _ ht => ht.answerEntries clock request

end Server

/-! ## Loops -/

/-- Turns that come to the same, at servers that are the same but for their timers. -/
structure Turn.Resembles (a b : Turn σ μ) : Prop where
  calls : b.calls = a.calls
  leader : b.leader = a.leader
  verdict : b.verdict = a.verdict
  server : a.server.Resembles b.server

namespace Server

variable {s s' : Server σ μ}

theorem Resembles.dispatch (h : s.Resembles s') (term : Nat) (wants : Progress → Bool)
    (peers : List (ServerId × Progress)) :
    s'.dispatch term wants peers = s.dispatch term wants peers := by
  obtain ⟨timer, timeouts, rfl⟩ := h
  induction peers with
  | nil => rfl
  | cons first rest ih =>
    rw [Server.dispatch, Server.dispatch, ih]
    rfl

theorem Resembles.dispatchTo (h : s.Resembles s') (term : Nat)
    (peers : List (ServerId × Progress)) (peer : ServerId) (progress : Progress) :
    s'.dispatchTo term peers peer progress = s.dispatchTo term peers peer progress := by
  obtain ⟨timer, timeouts, rfl⟩ := h
  rfl

variable [StateMachine μ]

theorem Resembles.commitMajority (h : s.Resembles s') (term : Nat)
    (peers : List (ServerId × Progress)) :
    (s.commitMajority term peers).Alike Resembles (s'.commitMajority term peers) := by
  unfold Server.commitMajority
  simp only [h.log, h.volatile]
  split
  · exact ⟨rfl, h⟩
  · split
    · exact ⟨rfl, h⟩
    · split
      · exact ⟨rfl, h.withVolatile _⟩
      · exact (h.withVolatile _).applyEntries.andThen fun _ _ _ ht => ⟨rfl, ht⟩

theorem Resembles.settle (h : s.Resembles s') (leader : Leader) (sent : Dispatch)
    (nextBeat : Nat) :
    (s.settle leader sent nextBeat).Resembles (s'.settle leader sent nextBeat) := by
  obtain ⟨hresult, hstate⟩ := h.commitMajority leader.term sent.peers
  unfold Server.settle
  simp only [← hresult]
  split
  · exact ⟨rfl, rfl, rfl, h⟩
  · split <;> exact ⟨rfl, rfl, rfl, hstate⟩

theorem Resembles.handleReport (h : s.Resembles s') (leader : Leader)
    (peers : List (ServerId × Progress)) (nextBeat : Nat) (report : AppendReport) :
    (s.handleReport leader peers nextBeat report).Resembles
      (s'.handleReport leader peers nextBeat report) := by
  unfold Server.handleReport
  simp only [h.log, h.dispatchTo]
  split
  · exact ⟨rfl, rfl, rfl, h⟩
  · split
    · exact ⟨rfl, rfl, rfl, h⟩
    · split
      · exact ⟨rfl, rfl, rfl, h⟩
      · split
        · exact h.settle ..
        · exact ⟨rfl, rfl, rfl, h⟩

theorem Resembles.leaderTurn (h : s.Resembles s') (clock : Clock) (branch : Branch)
    (leader : Leader) :
    (s.leaderTurn clock branch leader).Resembles (s'.leaderTurn clock branch leader) := by
  have hsame : s'.initialProgress = s.initialProgress ∧ s'.config = s.config := by
    obtain ⟨timer, timeouts, rfl⟩ := h
    exact ⟨rfl, rfl⟩
  unfold Server.leaderTurn
  simp only [h.log, hsame, h.dispatch]
  split
  · exact ⟨rfl, rfl, rfl, h⟩
  · exact ⟨rfl, rfl, rfl, h⟩
  · split
    · exact ⟨rfl, rfl, rfl, h⟩
    · exact h.settle ..
    · split
      · exact h.settle ..
      · exact ⟨rfl, rfl, rfl, h⟩
    · exact h.handleReport ..

variable [Storage σ]

theorem Resembles.runLeader (h : s.Resembles s') (clock : Clock) (branch : Branch)
    (leader : Leader) :
    (s'.runLeader clock branch leader).1 = (s.runLeader clock branch leader).1 ∧
      (s.runLeader clock branch leader).2.Resembles (s'.runLeader clock branch leader).2 := by
  have hturn := h.leaderTurn clock branch leader
  unfold Server.runLeader
  generalize s.leaderTurn clock branch leader = turn at hturn ⊢
  generalize s'.leaderTurn clock branch leader = turn' at hturn ⊢
  obtain ⟨calls, leader', t, verdict⟩ := turn
  obtain ⟨calls', leader'', t', verdict'⟩ := turn'
  obtain ⟨rfl, rfl, rfl, ht⟩ := hturn
  have hended := ht.withRole (.leader { leader'' with phase := .ended })
  cases verdict' with
  | goesOn => exact ⟨rfl, ht.withRole (.leader leader'')⟩
  | halts => exact ⟨rfl, hended⟩
  | fails e => exact ⟨rfl, (hended.withRole _).recover clock⟩
  | stepsDown term =>
    have hstepped := hended.stepDown clock term
    simp only
    generalize ({ t with role := .leader { leader'' with phase := .ended } } :
      Server σ μ).stepDown clock term = stepped at hstepped ⊢
    generalize ({ t' with role := .leader { leader'' with phase := .ended } } :
      Server σ μ).stepDown clock term = stepped' at hstepped ⊢
    obtain ⟨result, u⟩ := stepped
    obtain ⟨result', u'⟩ := stepped'
    obtain ⟨rfl, hu⟩ : result = result' ∧ u.Resembles u' := hstepped
    cases result with
    | ok newer => exact ⟨rfl, hu⟩
    | error e =>
      refine ⟨rfl, Resembles.recover ?_ clock⟩
      rw [hu.role]
      exact hu.withRole u.role.stop

theorem Resembles.runRetired (h : s.Resembles s') (clock : Clock) (branch : Branch)
    (place : Nat) :
    (s'.runRetired clock branch place).1 = (s.runRetired clock branch place).1 ∧
      (s.runRetired clock branch place).2.Resembles (s'.runRetired clock branch place).2 := by
  unfold Server.runRetired
  rw [h.retired]
  split
  · next leader _ =>
    obtain ⟨hcalls, hleader, hverdict, hserver⟩ := h.leaderTurn clock branch leader
    simp only [hcalls, hleader, hverdict]
    split
    · exact ⟨rfl, hserver.withRetired _⟩
    · exact ⟨rfl, hserver.withRetired _⟩
    · exact ⟨rfl, hserver.withRetired _⟩
    · exact ⟨rfl, ((hserver.withRetired _).stepDown clock _).2⟩
  · exact ⟨rfl, h.withRetired _⟩
  · exact ⟨rfl, h⟩

/-! ## Candidates -/

omit [Storage σ] [StateMachine μ] in
theorem Resembles.candidateFailed (h : s.Resembles s') (clock : Clock) (candidate : Candidate)
    (e : EngineError) :
    (s.candidateFailed clock candidate e).Resembles (s'.candidateFailed clock candidate e) := by
  have hended : (s.enterPhase candidate .ended).Resembles (s'.enterPhase candidate .ended) :=
    h.withRole _
  unfold Server.candidateFailed
  simp only
  split
  · exact hended
  · exact hended.recover clock

omit [StateMachine μ] in
theorem Resembles.openRound (h : s.Resembles s') (clock : Clock) (candidate : Candidate) :
    (s'.openRound clock candidate).1 = (s.openRound clock candidate).1 ∧
      (s.openRound clock candidate).2.Resembles (s'.openRound clock candidate).2 := by
  obtain ⟨timer, timeouts, rfl⟩ := h
  unfold Server.openRound
  simp only
  generalize s.durable.openTerm = opened
  obtain ⟨_ | term, durable⟩ := opened
  · refine ⟨rfl, Resembles.candidateFailed ?_ clock candidate _⟩
    exact ⟨timer, timeouts, rfl⟩
  · exact ⟨rfl, _, timeouts, rfl⟩

omit [StateMachine μ] in
theorem Resembles.abandonRound (h : s.Resembles s') (clock : Clock) (candidate : Candidate)
    (term : Nat) :
    (s.abandonRound clock candidate term).Resembles (s'.abandonRound clock candidate term) := by
  have hended : (s.enterPhase candidate .ended).Resembles (s'.enterPhase candidate .ended) :=
    h.withRole _
  have hstepped := hended.stepDown clock term
  unfold Server.abandonRound
  generalize (s.enterPhase candidate .ended).stepDown clock term = stepped at hstepped ⊢
  generalize (s'.enterPhase candidate .ended).stepDown clock term = stepped' at hstepped ⊢
  obtain ⟨result, t⟩ := stepped
  obtain ⟨result', t'⟩ := stepped'
  obtain ⟨rfl, ht⟩ : result = result' ∧ t.Resembles t' := hstepped
  cases result with
  | ok newer => exact ht
  | error e => exact ht.recover clock

omit [StateMachine μ] in
theorem Resembles.judgeRound (h : s.Resembles s') (clock : Clock) (candidate : Candidate)
    (term : Nat) (tally : Tally) :
    (s.judgeRound clock candidate term tally).Resembles
      (s'.judgeRound clock candidate term tally) := by
  have habandons := h.abandonRound clock candidate tally.largestTerm
  obtain ⟨timer, timeouts, rfl⟩ := h
  unfold Server.judgeRound Server.becomeLeader
  simp only
  split
  · exact habandons
  · split
    · split <;> exact ⟨_, timeouts, rfl⟩
    · split <;> exact ⟨timer, timeouts, rfl⟩

omit [StateMachine μ] in
theorem Resembles.candidateTurn (h : s.Resembles s') (clock : Clock) (candidate : Candidate) :
    (s'.candidateTurn clock candidate).1 = (s.candidateTurn clock candidate).1 ∧
      (s.candidateTurn clock candidate).2.Resembles (s'.candidateTurn clock candidate).2 := by
  unfold Server.candidateTurn
  split
  · exact ⟨rfl, h.withRole _⟩
  · split
    · exact h.openRound clock candidate
    · exact ⟨rfl, h.judgeRound clock candidate _ _⟩
    · split
      · exact h.openRound clock candidate
      · exact ⟨rfl, h⟩
    · exact ⟨rfl, h⟩

omit [Storage σ] [StateMachine μ] in
theorem Resembles.countVote (h : s.Resembles s') (term : Nat)
    (result : Except CallError VoteReply) :
    (s.countVote term result).Resembles (s'.countVote term result) := by
  unfold Server.countVote
  rw [h.role]
  split
  · split
    · split
      · exact h.withRole _
      · exact h
    · exact h
  · exact h

/-! ## Steps -/

theorem Resembles.runRole (h : s.Resembles s') (clock : Clock) (branch : Branch) :
    (s'.runRole clock branch).1 = (s.runRole clock branch).1 ∧
      (s.runRole clock branch).2.Resembles (s'.runRole clock branch).2 := by
  unfold Server.runRole
  rw [h.role]
  split
  · exact ⟨rfl, h⟩
  · exact h.candidateTurn clock _
  · exact h.runLeader clock branch _

theorem Resembles.handOutcome (h : s.Resembles s') (clock : Clock) (term : Nat)
    (report : AppendReport) :
    (s'.handOutcome clock term report).1 = (s.handOutcome clock term report).1 ∧
      (s.handOutcome clock term report).2.Resembles (s'.handOutcome clock term report).2 := by
  unfold Server.handOutcome
  rw [h.role, h.retired]
  split
  · exact h.runRole clock _
  · split
    · exact h.runRetired clock _ _
    · exact ⟨rfl, h⟩

omit [Storage σ] [StateMachine μ] in
theorem Resembles.shutDown (h : s.Resembles s') : s.shutDown.Resembles s'.shutDown := by
  obtain ⟨timer, timeouts, rfl⟩ := h
  unfold Server.shutDown
  simp only
  split <;> exact ⟨_, timeouts, rfl⟩

/-- Only who takes a timeout looks at the timer, and after a shutdown nobody does. -/
theorem Resembles.step (h : s.Resembles s') (clock : Clock) (event : Event)
    (htimeout : event = .takeTimeout → s.isShutDown) :
    (s'.step clock event).answer = (s.step clock event).answer ∧
      (s'.step clock event).calls = (s.step clock event).calls ∧
      (s.step clock event).server.Resembles (s'.step clock event).server := by
  cases event with
  | requestVote request =>
    obtain ⟨hresult, hstate⟩ := h.requestVote clock request
    exact ⟨congrArg Answer.vote hresult.symm, rfl, hstate⟩
  | appendEntries request =>
    obtain ⟨hresult, hstate⟩ := h.appendEntries clock request
    exact ⟨congrArg Answer.append hresult.symm, rfl, hstate⟩
  | submit command =>
    obtain ⟨hresult, hstate⟩ := h.submit command
    exact ⟨congrArg Answer.submit hresult.symm, rfl, hstate⟩
  | voteResult term result => exact ⟨rfl, rfl, h.countVote term result⟩
  | appendResult term report => exact ⟨rfl, h.handOutcome clock term report⟩
  | timerFires =>
    obtain ⟨timer, timeouts, rfl⟩ := h
    exact ⟨rfl, rfl, _, _, rfl⟩
  | takeTimeout =>
    have hdown := htimeout rfl
    have hdown' : s'.isShutDown := h.isShutDown.trans hdown
    refine ⟨rfl, rfl, ?_⟩
    show s.takeTimeout.Resembles s'.takeTimeout
    rw [Server.takeTimeout, if_pos hdown, Server.takeTimeout, if_pos hdown']
    exact h
  | turn branch => exact ⟨rfl, h.runRole clock branch⟩
  | retiredTurn place branch => exact ⟨rfl, h.runRetired clock branch place⟩
  | shutDown => exact ⟨rfl, rfl, h.shutDown⟩

end Server

end Quorum
