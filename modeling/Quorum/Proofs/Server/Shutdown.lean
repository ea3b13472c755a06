import Quorum.Proofs.Server.Cases

set_option autoImplicit false

/-! # Loops and requests after a shutdown

A server that is shut down still answers requests, and a leader's loop may have turns before it
notices that it is to end. What a loop does then leaves the timer alone, and a newer term is adopted
only if a peer has shown it. The same holds for requests but for one thing: a follower that gives its
vote, or is sent entries in its term, waits anew and does not ask whether it is shut down. -/

namespace Quorum

variable {σ μ : Type}

/-! ## What is learned from others -/

/-- The term that the outcome of a leader's request shows. -/
def Branch.offeredTerm? : Branch → Option Nat
  | .outcome report => report.result.toOption.map AppendReply.term
  | _ => none

/-- The term that a peer shows at an event: that of a request, or of the reply to a leader's. The reply
    to a candidate's request is left out, as nobody looks at the votes after a shutdown. -/
def Event.offeredTerm? : Event → Option Nat
  | .requestVote request => some request.term
  | .appendEntries request => some request.term
  | .appendResult _ report => (Branch.outcome report).offeredTerm?
  | .turn branch | .retiredTurn _ branch => branch.offeredTerm?
  | _ => none

namespace Server

/-- The term stays, or is a larger one that was offered. -/
def Adopts (s s' : Server σ μ) (offered : Option Nat) : Prop :=
  s'.term = s.term ∨ s.term < s'.term ∧ offered = some s'.term

/-- Nothing becomes of the timer, and a term is only adopted if it was offered. -/
structure Fades (s s' : Server σ μ) (offered : Option Nat) : Prop where
  timer : s'.timer = s.timer
  term : s.Adopts s' offered

variable {s s' : Server σ μ} {offered : Option Nat}

theorem Fades.of_eq (htimer : s'.timer = s.timer) (hdurable : s'.durable = s.durable) :
    s.Fades s' offered :=
  ⟨htimer, Or.inl (congrArg DurableState.term hdurable)⟩

theorem Fades.congr {t : Server σ μ} (h : s.Fades s' offered) (htimer : t.timer = s.timer)
    (hdurable : t.durable = s.durable) : t.Fades s' offered := by
  refine ⟨h.timer.trans htimer.symm, ?_⟩
  have hterm := h.term
  unfold Adopts Server.term at hterm ⊢
  rwa [hdurable]

/-! ## Giving up a role -/

theorem recover_of_isShutDown (clock : Clock) (hdown : s.isShutDown) : s.recover clock = s := by
  unfold Server.recover
  rw [if_pos hdown]

/-- A shutdown keeps the timer from being started for a new follower. -/
theorem becomeFollower_timer (clock : Clock) (hdown : s.isShutDown) :
    (s.becomeFollower clock).timer = s.timer := by
  by_cases hrole : s.role = .follower
  · unfold Server.becomeFollower
    rw [hrole]
  · obtain ⟨retired, leader, heq, -⟩ := becomeFollower_of_ne clock hrole
    rw [heq]
    exact if_pos hdown

theorem becomeFollower_isShutDown (clock : Clock) (s : Server σ μ) :
    (s.becomeFollower clock).isShutDown = s.isShutDown := by
  obtain ⟨retired, leader, timer, heq, -⟩ := becomeFollower_eq clock s
  rw [heq]

theorem fades_stepDown [Storage σ] (clock : Clock) (term : Nat) (hdown : s.isShutDown) :
    s.Fades (s.stepDown clock term).state (some term) := by
  rcases stepDown_cases clock term s with ⟨-, heq⟩ | ⟨hlt, ⟨disk, heq⟩ | ⟨e, disk, heq⟩⟩ <;>
    rw [heq]
  · exact .of_eq rfl rfl
  · refine ⟨becomeFollower_timer clock hdown, Or.inr ?_⟩
    unfold Server.term
    rw [Attempt.ok, becomeFollower_durable]
    exact ⟨hlt, rfl⟩
  · exact ⟨rfl, Or.inl rfl⟩

/-! ## Loops -/

theorem settle_verdict [StateMachine μ] (s : Server σ μ) (leader : Leader) (sent : Dispatch)
    (nextBeat term : Nat) : (s.settle leader sent nextBeat).verdict ≠ .stepsDown term := by
  unfold Server.settle
  simp only
  split
  · nofun
  · split <;> nofun

/-- A leader's loop gives way only to a term that the outcome of a request has shown. -/
theorem offeredTerm?_of_stepsDown [StateMachine μ] {clock : Clock} {branch : Branch}
    {leader : Leader} {term : Nat}
    (h : (s.leaderTurn clock branch leader).verdict = .stepsDown term) :
    branch.offeredTerm? = some term := by
  have hsettle : ∀ {leader sent nextBeat},
      (s.settle leader sent nextBeat).verdict = .stepsDown term → branch.offeredTerm? = some term :=
    fun h => absurd h (settle_verdict s _ _ _ term)
  unfold Server.leaderTurn at h
  split at h
  · cases h
  · cases h
  · split at h
    · split at h <;> cases h
    · exact hsettle h
    · split at h
      · exact hsettle h
      · cases h
    · next report =>
      unfold Server.handleReport at h
      simp only at h
      split at h
      · cases h
      · split at h
        · cases h
        · next reply hresult =>
          split at h
          · cases h
            show report.result.toOption.map _ = _
            rw [hresult]
            rfl
          · split at h
            · exact hsettle h
            · generalize Dispatch.fault _ = fault at h
              cases fault <;> cases h

variable [Storage σ] [StateMachine μ]

theorem fades_runLeader (clock : Clock) (branch : Branch) (leader : Leader)
    (hdown : s.isShutDown) :
    s.Fades (s.runLeader clock branch leader).2 branch.offeredTerm? := by
  have hoffered := fun term => @offeredTerm?_of_stepsDown σ μ s _ clock branch leader term
  have hadvances := (takes_leaderTurn clock branch leader s).server
  unfold Server.runLeader
  generalize s.leaderTurn clock branch leader = turn at hoffered hadvances ⊢
  obtain ⟨calls, leader', server, verdict⟩ := turn
  obtain ⟨committed, applied, machine, rfl⟩ := hadvances
  cases verdict with
  | goesOn => exact .of_eq rfl rfl
  | halts => exact .of_eq rfl rfl
  | fails e =>
    simp only
    rw [recover_of_isShutDown]
    · exact .of_eq rfl rfl
    · exact hdown
  | stepsDown term =>
    rw [hoffered term rfl]
    simp only
    generalize hended : ({ s with
      volatile := { s.volatile with committed, applied }
      machine
      role := .leader { leader' with phase := .ended } } : Server σ μ) = ended
    have hended_down : ended.isShutDown := by
      rw [← hended]
      exact hdown
    have hfades := fades_stepDown clock term hended_down
    rcases stepDown_cases clock term ended with ⟨-, heq⟩ | ⟨-, ⟨disk, heq⟩ | ⟨e, disk, heq⟩⟩ <;>
      rw [heq] at hfades ⊢ <;> subst hended
    · exact hfades.congr rfl rfl
    · exact hfades.congr rfl rfl
    · simp only [Attempt.error]
      rw [recover_of_isShutDown]
      · exact ⟨rfl, Or.inl rfl⟩
      · exact hdown

theorem fades_runRetired (clock : Clock) (branch : Branch) (place : Nat) (hdown : s.isShutDown) :
    s.Fades (s.runRetired clock branch place).2 branch.offeredTerm? := by
  unfold Server.runRetired
  split
  · next leader _ =>
    have hoffered := fun term => @offeredTerm?_of_stepsDown σ μ s _ clock branch leader term
    have hadvances := (takes_leaderTurn clock branch leader s).server
    generalize s.leaderTurn clock branch leader = turn at hoffered hadvances ⊢
    obtain ⟨calls, leader', server, verdict⟩ := turn
    obtain ⟨committed, applied, machine, rfl⟩ := hadvances
    cases verdict with
    | stepsDown term =>
      rw [hoffered term rfl]
      simp only
      refine Fades.congr (fades_stepDown clock term ?_) rfl rfl
      exact hdown
    | _ => exact .of_eq rfl rfl
  · exact .of_eq rfl rfl
  · exact .of_eq rfl rfl

omit [StateMachine μ] in
/-- The loop of a candidate that is shut down has ended with its next turn. -/
theorem candidateTurn_of_isShutDown (h : s.InOrder) (hdown : s.isShutDown) (clock : Clock)
    {candidate : Candidate} (hrole : s.role = .candidate candidate) :
    s.candidateTurn clock candidate = ([], s.enterPhase candidate .ended) := by
  unfold Server.candidateTurn
  rw [if_pos ((h.candidate hrole).stopped.trans hdown)]

theorem fades_runRole (h : s.InOrder) (hdown : s.isShutDown) (clock : Clock) (branch : Branch) :
    s.Fades (s.runRole clock branch).2 branch.offeredTerm? := by
  unfold Server.runRole
  split
  · exact .of_eq rfl rfl
  · next candidate hrole =>
    rw [candidateTurn_of_isShutDown h hdown clock hrole]
    exact .of_eq rfl rfl
  · exact fades_runLeader clock branch _ hdown

theorem fades_handOutcome (h : s.InOrder) (hdown : s.isShutDown) (clock : Clock) (term : Nat)
    (report : AppendReport) :
    s.Fades (s.handOutcome clock term report).2 (Branch.outcome report).offeredTerm? := by
  unfold Server.handOutcome
  split
  · exact fades_runRole h hdown clock _
  · split
    · exact fades_runRetired clock _ _ hdown
    · exact .of_eq rfl rfl

/-! ## Requests -/

/-- What makes a follower wait anew: it gives its vote, or is sent entries in its term. -/
def Heeds (event : Event) (result : StepResult σ μ) : Prop :=
  result.server.mode = .follower ∧
    match event with
    | .requestVote _ => ∃ reply, result.answer = .vote (.ok reply) ∧ reply.granted
    | .appendEntries request => request.term = result.server.term
    | _ => False

/-- The timer is started anew if the event is heeded, and is left alone otherwise. -/
structure Minds (clock : Clock) (s : Server σ μ) (event : Event) (result : StepResult σ μ) :
    Prop where
  heeds : Heeds event result → result.server.timer = clock.restart s.timer
  ignores : ¬ Heeds event result → result.server.timer = s.timer

omit [Storage σ] [StateMachine μ] in
theorem Minds.congr {clock : Clock} {t : Server σ μ} {event : Event} {result : StepResult σ μ}
    (h : Minds clock s event result) (htimer : t.timer = s.timer) :
    Minds clock t event result := by
  refine ⟨fun hheeds => ?_, fun hnot => (h.ignores hnot).trans htimer.symm⟩
  rw [htimer]
  exact h.heeds hheeds

omit [StateMachine μ] in
theorem decideVote_timer (request : VoteRequest) (s : Server σ μ) :
    (s.decideVote request).state.timer = s.timer := by
  unfold Server.decideVote
  simp only
  split
  · rfl
  · split <;> rfl

omit [StateMachine μ] in
theorem decideVote_term (request : VoteRequest) (s : Server σ μ) :
    (s.decideVote request).state.term = s.term := by
  unfold Server.decideVote
  split
  · rfl
  · rcases s.durable.grantVote_cases request.term request.candidate request.last with
      ⟨granted, heq⟩ | ⟨-, ⟨disk, heq⟩ | ⟨e, disk, heq⟩⟩ <;> rw [heq] <;> rfl

omit [StateMachine μ] in
theorem minds_answerVote (clock : Clock) (request : VoteRequest) (s : Server σ μ) :
    Minds clock s (.requestVote request)
      ⟨.vote (s.answerVote clock request).result, [], (s.answerVote clock request).state⟩ := by
  have hrole := decideVote_role request s
  have htimer := decideVote_timer request s
  unfold Server.answerVote
  split
  · next hfollower =>
    generalize s.decideVote request = decided at hrole htimer ⊢
    obtain ⟨e | reply, s'⟩ := decided
    · refine ⟨?_, fun _ => htimer⟩
      rintro ⟨-, reply, hanswer, -⟩
      cases hanswer
    · show Minds clock s _ ⟨.vote (.ok reply), [], if reply.granted then _ else s'⟩
      split
      · next hgranted =>
        have hmode : s'.mode = .follower := congrArg Role.mode (hrole.trans hfollower)
        exact ⟨fun _ => congrArg clock.restart htimer,
          fun hnot => absurd ⟨hmode, reply, rfl, hgranted⟩ hnot⟩
      · next hrefused =>
        refine ⟨?_, fun _ => htimer⟩
        rintro ⟨-, reply, ⟨⟩, hgranted⟩
        exact absurd hgranted hrefused
  · next candidate hcandidate =>
    refine ⟨?_, fun _ => htimer⟩
    rintro ⟨hmode, -⟩
    have hmode : (s.decideVote request).state.role.mode = .follower := hmode
    rw [hrole, hcandidate] at hmode
    cases hmode
  · refine ⟨?_, fun _ => rfl⟩
    rintro ⟨-, reply, hanswer, -⟩
    cases hanswer

omit [StateMachine μ] in
theorem answerVote_term (clock : Clock) (request : VoteRequest) (s : Server σ μ) :
    (s.answerVote clock request).state.term = s.term := by
  have hterm := decideVote_term request s
  unfold Server.answerVote
  split
  · generalize s.decideVote request = decided at hterm ⊢
    obtain ⟨e | reply, s'⟩ := decided
    · exact hterm
    · show (if reply.granted then _ else s').term = _
      split <;> exact hterm
  · exact hterm
  · rfl

theorem minds_requestVote (clock : Clock) (request : VoteRequest) (hdown : s.isShutDown) :
    Minds clock s (.requestVote request) (s.step clock (.requestVote request)) := by
  have hstepped := (fades_stepDown clock request.term hdown).timer
  show Minds clock s _ ⟨.vote (s.requestVote clock request).result, [], _⟩
  unfold Server.requestVote
  generalize s.stepDown clock request.term = stepped at hstepped ⊢
  obtain ⟨e | newer, s'⟩ := stepped
  · refine ⟨?_, fun _ => hstepped⟩
    rintro ⟨-, reply, hanswer, -⟩
    cases hanswer
  · exact (minds_answerVote clock request s').congr hstepped.symm

theorem minds_takeEntries (clock : Clock) {request : AppendRequest} (hrole : s.role = .follower)
    (hle : request.term ≤ s.term) :
    Minds clock s (.appendEntries request)
      ⟨.append (s.takeEntries clock request).result, [], (s.takeEntries clock request).state⟩ := by
  have hmode : (s.takeEntries clock request).state.mode = .follower := by
    rw [Server.mode, takeEntries_role, hrole]
    rfl
  have hterm := takeEntries_term clock request s
  have htakes := takesEntries_takeEntries clock request s
  have hreached : s.term ≤ request.term →
      (s.takeEntries clock request).state.timer = clock.restart s.timer →
      Minds clock s (.appendEntries request)
        ⟨.append (s.takeEntries clock request).result, [], (s.takeEntries clock request).state⟩ :=
    fun hge htimer => ⟨fun _ => htimer,
      fun hnot => absurd ⟨hmode, (Nat.le_antisymm hle hge).trans hterm.symm⟩ hnot⟩
  generalize s.takeEntries clock request = taken at hmode hterm htakes hreached ⊢
  cases htakes with
  | outdated hlt =>
    refine ⟨?_, fun _ => rfl⟩
    rintro ⟨-, hsame⟩
    exact absurd hsame (Nat.ne_of_lt hlt)
  | fails hge => exact hreached hge rfl
  | refuses hge => exact hreached hge rfl
  | keeps hge => exact hreached hge rfl
  | commits hge _ _ hs' =>
    refine hreached hge ?_
    rw [hs']
    rfl

theorem minds_answerEntries (clock : Clock) {request : AppendRequest} (hdown : s.isShutDown)
    (hle : request.term ≤ s.term) :
    Minds clock s (.appendEntries request)
      ⟨.append (s.answerEntries clock request).result, [],
        (s.answerEntries clock request).state⟩ := by
  have hother : ∀ {answer}, s.mode ≠ .follower →
      Minds clock s (.appendEntries request) ⟨answer, [], s⟩ :=
    fun hmode => ⟨fun hheeds => absurd hheeds.1 hmode, fun _ => rfl⟩
  unfold Server.answerEntries
  split
  · next hrole => exact minds_takeEntries clock hrole hle
  · next candidate hrole =>
    split
    · refine hother fun hmode => ?_
      rw [Server.mode, hrole] at hmode
      cases hmode
    · rw [concede_eq clock hle, Attempt.andThen_ok]
      refine (minds_takeEntries clock (becomeFollower_role clock _) ?_).congr ?_
      · rw [Server.term, becomeFollower_durable]
        exact hle
      · rw [becomeFollower_timer]
        exact hdown
  · next leader hrole =>
    refine hother fun hmode => ?_
    rw [Server.mode, hrole] at hmode
    cases hmode

theorem answerEntries_term (clock : Clock) {request : AppendRequest} (hle : request.term ≤ s.term) :
    (s.answerEntries clock request).state.term = s.term := by
  unfold Server.answerEntries
  split
  · exact takeEntries_term clock request s
  · split
    · rfl
    · rw [concede_eq clock hle, Attempt.andThen_ok, takeEntries_term]
      unfold Server.term
      rw [becomeFollower_durable]
  · rfl

theorem minds_appendEntries (clock : Clock) (request : AppendRequest) (hdown : s.isShutDown) :
    Minds clock s (.appendEntries request) (s.step clock (.appendEntries request)) := by
  show Minds clock s _ ⟨.append (s.appendEntries clock request).result, [], _⟩
  unfold Server.appendEntries
  rcases stepDown_cases clock request.term s with
    ⟨hle, heq⟩ | ⟨hlt, ⟨disk, heq⟩ | ⟨e, disk, heq⟩⟩ <;> rw [heq]
  · exact minds_answerEntries clock hdown hle
  · rw [Attempt.andThen_ok]
    refine (minds_answerEntries clock ?_ ?_).congr ?_
    · rw [becomeFollower_isShutDown]
      exact hdown
    · refine Nat.le_of_eq ?_
      rw [Server.term, becomeFollower_durable]
    · rw [becomeFollower_timer]
      exact hdown
  · refine ⟨?_, fun _ => rfl⟩
    rintro ⟨-, hsame⟩
    exact absurd hsame (Nat.ne_of_gt hlt)

omit [StateMachine μ] in
theorem adopts_requestVote (clock : Clock) (request : VoteRequest) (hdown : s.isShutDown) :
    s.Adopts (s.requestVote clock request).state (some request.term) := by
  have hstepped := (fades_stepDown clock request.term hdown).term
  unfold Server.requestVote
  generalize s.stepDown clock request.term = stepped at hstepped ⊢
  obtain ⟨e | newer, s'⟩ := stepped
  · exact hstepped
  · show s.Adopts (s'.answerVote clock request).state _
    unfold Adopts
    rw [answerVote_term]
    exact hstepped

theorem adopts_appendEntries (clock : Clock) (request : AppendRequest) (hdown : s.isShutDown) :
    s.Adopts (s.appendEntries clock request).state (some request.term) := by
  have hstepped := (fades_stepDown clock request.term hdown).term
  have hreached : ∀ newer, (s.stepDown clock request.term).result = .ok newer →
      request.term ≤ (s.stepDown clock request.term).state.term :=
    fun _ => term_le_of_stepDown clock request.term s
  unfold Server.appendEntries
  generalize s.stepDown clock request.term = stepped at hstepped hreached ⊢
  obtain ⟨e | newer, s'⟩ := stepped
  · exact hstepped
  · show s.Adopts (s'.answerEntries clock request).state _
    unfold Adopts
    rw [answerEntries_term clock (hreached newer rfl)]
    exact hstepped

omit [StateMachine μ] in
/-- Nobody takes a command after a shutdown. -/
theorem submit_of_isShutDown (h : s.InOrder) (hdown : s.isShutDown) (command : Bytes) :
    s.submit command = .ok (.notLeader s.volatile.leader) s := by
  unfold Server.submit
  split
  · next leader hrole => rw [if_pos ((h.leader hrole).stopped.trans hdown)]
  · rfl

end Server

end Quorum
