import Quorum.Proofs.Server.Roles

set_option autoImplicit false

/-! # What leaves the indices alone

Nothing is committed or applied but when a leader's loop counts copies, and when a follower takes
entries. Whatever else a server does is *quiet*: a role may be given up, a vote may be decided, a
command may be put at the end of the log, but the two indices and the machine stay as they are. -/

namespace Quorum.Server

variable {σ μ : Type}

/-- Nothing is committed, and nothing is applied. -/
structure Quiet (s s' : Server σ μ) : Prop where
  committed : s'.volatile.committed = s.volatile.committed
  applied : s'.volatile.applied = s.volatile.applied
  machine : s'.machine = s.machine

theorem Quiet.refl (s : Server σ μ) : Quiet s s := ⟨rfl, rfl, rfl⟩

theorem Quiet.trans {s s' s'' : Server σ μ} (h : Quiet s s') (h' : Quiet s' s'') : Quiet s s'' :=
  ⟨h'.committed.trans h.committed, h'.applied.trans h.applied, h'.machine.trans h.machine⟩

theorem quiet_durable (s : Server σ μ) (durable : DurableState σ) : Quiet s { s with durable } :=
  ⟨rfl, rfl, rfl⟩

theorem quiet_role (s : Server σ μ) (role : Role) : Quiet s { s with role } := ⟨rfl, rfl, rfl⟩

/-- Who is quiet hands nothing to the machine. -/
theorem Quiet.hands [StateMachine μ] {s s' : Server σ μ} (h : Quiet s s') : Hands s s' := by
  refine ⟨Nat.le_of_eq h.applied.symm, ?_⟩
  rw [h.machine, h.applied, List.drop_eq_nil_of_le (List.length_take_le ..)]
  rfl

theorem Quiet.trans_hands [StateMachine μ] {s s' s'' : Server σ μ} (h : Quiet s s')
    (h' : Hands s' s'') : Hands s s'' := by
  obtain ⟨hle, hmachine⟩ := h'
  rw [h.applied, h.machine] at hmachine
  exact ⟨h.applied ▸ hle, hmachine⟩

theorem Hands.trans_quiet [StateMachine μ] {s s' s'' : Server σ μ} (h : Hands s s')
    (h' : Quiet s' s'') (hlog : s''.log = s'.log) : Hands s s'' := by
  obtain ⟨hle, hmachine⟩ := h
  rw [← h'.machine, ← h'.applied, ← hlog] at hmachine
  exact ⟨h'.applied.symm ▸ hle, hmachine⟩

/-! ## Roles and timers -/

theorem quiet_becomeFollower (clock : Clock) (s : Server σ μ) :
    Quiet s (s.becomeFollower clock) := by
  obtain ⟨retired, leader, timer, heq, -⟩ := becomeFollower_eq clock s
  rw [heq]
  exact ⟨rfl, rfl, rfl⟩

theorem quiet_recover (clock : Clock) (s : Server σ μ) : Quiet s (s.recover clock) := by
  unfold Server.recover
  split
  · exact Quiet.refl s
  · exact quiet_becomeFollower clock s

theorem recover_log (clock : Clock) (s : Server σ μ) : (s.recover clock).log = s.log := by
  unfold Server.recover
  split
  · rfl
  · show (s.becomeFollower clock).durable.log = s.durable.log
    rw [becomeFollower_durable]

theorem quiet_takeTimeout (s : Server σ μ) : Quiet s s.takeTimeout := by
  unfold Server.takeTimeout Server.becomeCandidate
  simp only
  repeat' split
  all_goals exact ⟨rfl, rfl, rfl⟩

theorem quiet_shutDown (s : Server σ μ) : Quiet s s.shutDown := by
  unfold Server.shutDown
  split
  · exact Quiet.refl s
  · exact ⟨rfl, rfl, rfl⟩

theorem quiet_countVote (term : Nat) (result : Except CallError VoteReply) (s : Server σ μ) :
    Quiet s (s.countVote term result) := by
  unfold Server.countVote
  repeat' split
  all_goals exact ⟨rfl, rfl, rfl⟩

variable [Storage σ]

theorem quiet_stepDown (clock : Clock) (term : Nat) (s : Server σ μ) :
    Quiet s (s.stepDown clock term).state := by
  unfold Server.stepDown
  generalize s.durable.adoptTerm term = adopted
  obtain ⟨_ | _ | _, durable⟩ := adopted
  · exact ⟨rfl, rfl, rfl⟩
  · exact ⟨rfl, rfl, rfl⟩
  · exact (quiet_durable s durable).trans (quiet_becomeFollower clock _)

/-! ## Candidates -/

omit [Storage σ] in
theorem quiet_candidateFailed (clock : Clock) (candidate : Candidate) (e : EngineError)
    (s : Server σ μ) : Quiet s (s.candidateFailed clock candidate e) := by
  have hended : Quiet s (s.enterPhase candidate .ended) := quiet_role s _
  rcases s.candidateFailed_cases clock candidate e with heq | heq <;> rw [heq]
  · exact hended
  · exact hended.trans (quiet_recover clock _)

theorem quiet_openRound (clock : Clock) (candidate : Candidate) (s : Server σ μ) :
    Quiet s (s.openRound clock candidate).2 := by
  unfold Server.openRound
  generalize s.durable.openTerm = opened
  obtain ⟨_ | term, durable⟩ := opened
  · exact (quiet_durable s durable).trans (quiet_candidateFailed clock candidate _ _)
  · exact ⟨rfl, rfl, rfl⟩

theorem quiet_abandonRound (clock : Clock) (candidate : Candidate) (term : Nat) (s : Server σ μ) :
    Quiet s (s.abandonRound clock candidate term) := by
  have hstepped : Quiet s ((s.enterPhase candidate .ended).stepDown clock term).state :=
    (quiet_role s _).trans (quiet_stepDown clock term _)
  unfold Server.abandonRound
  generalize (s.enterPhase candidate .ended).stepDown clock term = stepped at hstepped ⊢
  obtain ⟨_ | _, s'⟩ := stepped
  · exact hstepped.trans (quiet_recover clock s')
  · exact hstepped

theorem quiet_judgeRound (clock : Clock) (candidate : Candidate) (term : Nat) (tally : Tally)
    (s : Server σ μ) : Quiet s (s.judgeRound clock candidate term tally) := by
  unfold Server.judgeRound
  split
  · exact quiet_abandonRound clock candidate _ s
  · unfold Server.becomeLeader
    repeat' split
    all_goals exact ⟨rfl, rfl, rfl⟩

theorem quiet_candidateTurn (clock : Clock) (candidate : Candidate) (s : Server σ μ) :
    Quiet s (s.candidateTurn clock candidate).2 := by
  unfold Server.candidateTurn
  split
  · exact ⟨rfl, rfl, rfl⟩
  · split
    · exact quiet_openRound clock candidate s
    · exact quiet_judgeRound clock candidate _ _ s
    · split
      · exact quiet_openRound clock candidate s
      · exact Quiet.refl s
    · exact Quiet.refl s

/-! ## Requests -/

theorem quiet_decideVote (request : VoteRequest) (s : Server σ μ) :
    Quiet s (s.decideVote request).state := by
  unfold Server.decideVote
  split
  · exact Quiet.refl s
  · generalize s.durable.grantVote request.term request.candidate request.last = decided
    obtain ⟨_ | granted, durable⟩ := decided
    · exact ⟨rfl, rfl, rfl⟩
    · exact ⟨rfl, rfl, rfl⟩

theorem quiet_answerVote (clock : Clock) (request : VoteRequest) (s : Server σ μ) :
    Quiet s (s.answerVote clock request).state := by
  have hdecided := quiet_decideVote request s
  unfold Server.answerVote
  split
  · generalize s.decideVote request = decided at hdecided ⊢
    obtain ⟨_ | reply, s'⟩ := decided
    · exact hdecided
    · show Quiet s (if reply.granted then _ else s')
      split
      · exact hdecided.trans ⟨rfl, rfl, rfl⟩
      · exact hdecided
  · exact hdecided
  · exact Quiet.refl s

theorem quiet_requestVote (clock : Clock) (request : VoteRequest) (s : Server σ μ) :
    Quiet s (s.requestVote clock request).state := by
  have hstepped := quiet_stepDown clock request.term s
  unfold Server.requestVote
  generalize s.stepDown clock request.term = stepped at hstepped ⊢
  obtain ⟨_ | _, s'⟩ := stepped
  · exact hstepped
  · exact hstepped.trans (quiet_answerVote clock request s')

theorem quiet_submit (command : Bytes) (s : Server σ μ) : Quiet s (s.submit command).state := by
  unfold Server.submit
  split
  · next leader _ =>
    split
    · exact Quiet.refl s
    · generalize s.durable.appendCommand leader.term command = appended
      obtain ⟨_ | _ | entry, durable⟩ := appended
      · exact ⟨rfl, rfl, rfl⟩
      · exact ⟨rfl, rfl, rfl⟩
      · exact ⟨rfl, rfl, rfl⟩
  · exact Quiet.refl s

theorem concede_durable (clock : Clock) (term : Nat) (s : Server σ μ) :
    (s.concede clock term).state.durable = (s.durable.adoptTerm term).state := by
  simp only [Server.concede]
  generalize s.durable.adoptTerm term = adopted
  obtain ⟨_ | _, durable⟩ := adopted
  · rfl
  · exact becomeFollower_durable clock _

theorem concede_result (clock : Clock) (term : Nat) (s : Server σ μ) :
    (s.concede clock term).result = (s.durable.adoptTerm term).result.map fun _ => () := by
  simp only [Server.concede]
  generalize s.durable.adoptTerm term = adopted
  obtain ⟨_ | _, durable⟩ := adopted <;> rfl

theorem quiet_concede (clock : Clock) (term : Nat) (s : Server σ μ) :
    Quiet s (s.concede clock term).state := by
  simp only [Server.concede]
  generalize s.durable.adoptTerm term = adopted
  obtain ⟨_ | _, durable⟩ := adopted
  · exact (quiet_role s s.role.stop).trans (quiet_durable _ durable)
  · exact ((quiet_role s s.role.stop).trans (quiet_durable _ durable)).trans (quiet_becomeFollower clock _)

/-! ## Entries -/

/-- A follower that has heard from a leader, with what has become of its log. -/
def heard (s : Server σ μ) (clock : Clock) (leader : ServerId) (durable : DurableState σ) :
    Server σ μ :=
  { s with
    timer := clock.restart s.timer
    volatile := s.volatile.setLeader leader
    durable }

omit [Storage σ] in
theorem quiet_heard (s : Server σ μ) (clock : Clock) (leader : ServerId)
    (durable : DurableState σ) : Quiet s (s.heard clock leader durable) := ⟨rfl, rfl, rfl⟩

variable [StateMachine μ]

/-- What becomes of entries that a follower is sent. -/
inductive TakesEntries (clock : Clock) (request : AppendRequest) (s : Server σ μ) :
    Attempt EngineError AppendReply (Server σ μ) → Prop where
  /-- They come from a term that is over. -/
  | outdated (hterm : request.term < s.term) :
      TakesEntries clock request s (.ok (s.refuseEntries s.term) s)
  | fails {e : EngineError} {durable : DurableState σ} (hterm : s.term ≤ request.term)
      (happend : s.durable.append request.entries request.prev = .error e durable) :
      TakesEntries clock request s (.error e (s.heard clock request.leader durable))
  | refuses {durable : DurableState σ} (hterm : s.term ≤ request.term)
      (happend : s.durable.append request.entries request.prev = .ok .rejected durable) :
      TakesEntries clock request s
        (.ok ((s.heard clock request.leader durable).refuseEntries s.term)
          (s.heard clock request.leader durable))
  /-- They are taken, and the leader has not committed more than the follower. -/
  | keeps {durable : DurableState σ} {lastNew : Nat} {first : Option Nat}
      (hterm : s.term ≤ request.term)
      (happend : s.durable.append request.entries request.prev =
        .ok (.accepted lastNew first) durable)
      (hcommit : min request.commit lastNew ≤ s.volatile.committed) :
      TakesEntries clock request s
        (.ok ⟨s.term, true, lastNew⟩ (s.heard clock request.leader durable))
  /-- They are taken, and what the leader has committed of them is applied. -/
  | commits {durable : DurableState σ} {lastNew : Nat} {first : Option Nat} {s' : Server σ μ}
      (hterm : s.term ≤ request.term)
      (happend : s.durable.append request.entries request.prev =
        .ok (.accepted lastNew first) durable)
      (hcommit : s.volatile.committed < min request.commit lastNew)
      (hs' : s' = s.heard clock request.leader durable) :
      TakesEntries clock request s
        ⟨({ s' with
            volatile := { s'.volatile with committed := min request.commit lastNew } } :
            Server σ μ).applyEntries.result.map fun _ => ⟨s.term, true, lastNew⟩,
          ({ s' with
            volatile := { s'.volatile with committed := min request.commit lastNew } } :
            Server σ μ).applyEntries.state⟩

theorem takesEntries_takeEntries (clock : Clock) (request : AppendRequest) (s : Server σ μ) :
    TakesEntries clock request s (s.takeEntries clock request) := by
  unfold Server.takeEntries
  simp only
  split
  · next hterm => exact .outdated hterm
  · next hterm =>
    have hterm := Nat.le_of_not_lt hterm
    generalize htaken : s.durable.append request.entries request.prev = taken
    obtain ⟨e | _ | ⟨lastNew, first⟩, durable⟩ := taken
    · exact .fails hterm htaken
    · exact .refuses hterm htaken
    · simp only [VolatileState.advanceCommitted]
      split
      · next hold => exact .keeps hterm htaken hold
      · next hnew =>
        rw [if_pos rfl, Attempt.andThen_answer]
        exact .commits hterm htaken (Nat.lt_of_not_le hnew) rfl

theorem takeEntries_durable (clock : Clock) (request : AppendRequest) (s : Server σ μ)
    (hterm : s.term ≤ request.term) :
    (s.takeEntries clock request).state.durable =
      (s.durable.append request.entries request.prev).state := by
  have htakes := takesEntries_takeEntries clock request s
  generalize s.takeEntries clock request = taken at htakes ⊢
  cases htakes with
  | outdated hlt => exact absurd hterm (Nat.not_le.2 hlt)
  | commits _ happend _ hs' =>
    rw [happend, hs']
    rfl
  | _ _ happend =>
    rw [happend]
    rfl

theorem takeEntries_term (clock : Clock) (request : AppendRequest) (s : Server σ μ) :
    (s.takeEntries clock request).state.term = s.term := by
  rcases Nat.lt_or_ge request.term s.term with hlt | hge
  · unfold Server.takeEntries
    rw [if_pos hlt]
    rfl
  · rw [Server.term, takeEntries_durable clock request s hge]
    exact congrArg Ballot.term (s.durable.append_ballot request.entries request.prev)

theorem takeEntries_role (clock : Clock) (request : AppendRequest) (s : Server σ μ) :
    (s.takeEntries clock request).state.role = s.role := by
  have htakes := takesEntries_takeEntries clock request s
  generalize s.takeEntries clock request = taken at htakes ⊢
  cases htakes with
  | commits _ _ _ hs' =>
    rw [hs']
    rfl
  | _ => rfl

end Quorum.Server
