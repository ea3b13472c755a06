import Quorum.Proofs.Server.Step
import Quorum.Proofs.Server.Turns
import Quorum.Proofs.State.Operations

set_option autoImplicit false

/-! # The life of a server

A server starts from what its disk holds, and then one event after the other happens to it. Nothing
is assumed of the events: requests may come from anybody and ask for anything, and the disk may
refuse any write. A restart is a start from the disk that was left.

Whatever happens, term, vote and log change only by operations of the durable state, and so what
holds after any operations holds at all times. -/

namespace Quorum.Server

variable {σ μ : Type}

/-! ## Handlers and the durable state -/

theorem recover_durable (clock : Clock) (s : Server σ μ) :
    (s.recover clock).durable = s.durable := by
  unfold Server.recover
  split
  · rfl
  · exact becomeFollower_durable clock s

theorem takeTimeout_durable (s : Server σ μ) : s.takeTimeout.durable = s.durable := by
  unfold Server.takeTimeout Server.becomeCandidate
  simp only
  repeat' split
  all_goals rfl

theorem countVote_durable (term : Nat) (result : Except CallError VoteReply) (s : Server σ μ) :
    (s.countVote term result).durable = s.durable := by
  unfold Server.countVote
  repeat' split
  all_goals rfl

theorem shutDown_durable (s : Server σ μ) : s.shutDown.durable = s.durable := by
  unfold Server.shutDown
  split <;> rfl

/-- The durable state has only undergone operations, and was not loaded anew. -/
def Evolves [Storage σ] (s s' : Server σ μ) : Prop :=
  ∃ ops : List Operation, .reload ∉ ops ∧ s'.durable = s.durable.after ops

section

variable [Storage σ]

theorem Evolves.of_eq {s s' : Server σ μ} (h : s'.durable = s.durable) : Evolves s s' :=
  ⟨[], List.not_mem_nil, h⟩

theorem Evolves.of_perform {s s' : Server σ μ} (op : Operation)
    (h : s'.durable = (s.durable.perform op).state) (hop : op ≠ .reload := by nofun) :
    Evolves s s' :=
  ⟨[op], fun hreload => hop (List.mem_singleton.1 hreload).symm, h⟩

theorem Evolves.trans {s s' s'' : Server σ μ} (h : Evolves s s') (h' : Evolves s' s'') :
    Evolves s s'' := by
  obtain ⟨ops, hops, h⟩ := h
  obtain ⟨ops', hops', h'⟩ := h'
  refine ⟨ops ++ ops', ?_, by rw [h', h, DurableState.after_append]⟩
  rw [List.mem_append, not_or]
  exact ⟨hops, hops'⟩

/-- Terms only rise. -/
theorem Evolves.term_le {s s' : Server σ μ} (h : Evolves s s') : s.term ≤ s'.term := by
  obtain ⟨ops, hops, heq⟩ := h
  rw [Server.term, Server.term, heq]
  exact s.durable.term_le_after hops

theorem evolves_stepDown (clock : Clock) (term : Nat) (s : Server σ μ) :
    Evolves s (s.stepDown clock term).state :=
  .of_perform (.adoptTerm term) (stepDown_durable clock term s)

/-! ## Candidates -/

omit [Storage σ] in
theorem candidateFailed_durable (clock : Clock) (candidate : Candidate) (e : EngineError)
    (s : Server σ μ) : (s.candidateFailed clock candidate e).durable = s.durable := by
  rcases s.candidateFailed_cases clock candidate e with heq | heq <;> rw [heq]
  · rfl
  · exact recover_durable clock _

theorem evolves_openRound (clock : Clock) (candidate : Candidate) (s : Server σ μ) :
    Evolves s (s.openRound clock candidate).2 := by
  refine .of_perform .openTerm ?_
  show _ = s.durable.openTerm.state
  unfold Server.openRound
  generalize s.durable.openTerm = opened
  obtain ⟨_ | term, durable⟩ := opened
  · exact candidateFailed_durable clock candidate _ _
  · rfl

theorem evolves_abandonRound (clock : Clock) (candidate : Candidate) (term : Nat)
    (s : Server σ μ) : Evolves s (s.abandonRound clock candidate term) := by
  have hstepped : Evolves s ((s.enterPhase candidate .ended).stepDown clock term).state :=
    .trans (.of_eq rfl) (evolves_stepDown clock term _)
  unfold Server.abandonRound
  generalize (s.enterPhase candidate .ended).stepDown clock term = stepped at hstepped ⊢
  obtain ⟨_ | _, s'⟩ := stepped
  · exact hstepped.trans (.of_eq (recover_durable clock s'))
  · exact hstepped

theorem evolves_judgeRound (clock : Clock) (candidate : Candidate) (term : Nat) (tally : Tally)
    (s : Server σ μ) : Evolves s (s.judgeRound clock candidate term tally) := by
  unfold Server.judgeRound
  split
  · exact evolves_abandonRound clock candidate _ s
  · unfold Server.becomeLeader
    repeat' split
    all_goals exact .of_eq rfl

theorem evolves_candidateTurn (clock : Clock) (candidate : Candidate) (s : Server σ μ) :
    Evolves s (s.candidateTurn clock candidate).2 := by
  unfold Server.candidateTurn
  split
  · exact .of_eq rfl
  · split
    · exact evolves_openRound clock candidate s
    · exact evolves_judgeRound clock candidate _ _ s
    · split
      · exact evolves_openRound clock candidate s
      · exact .of_eq rfl
    · exact .of_eq rfl

/-! ## Requests -/

theorem evolves_decideVote (request : VoteRequest) (s : Server σ μ) :
    Evolves s (s.decideVote request).state := by
  unfold Server.decideVote
  split
  · exact .of_eq rfl
  · refine .of_perform (.grantVote request.term request.candidate request.last) ?_
    show _ = (s.durable.grantVote request.term request.candidate request.last).state
    generalize s.durable.grantVote request.term request.candidate request.last = decided
    obtain ⟨_ | granted, durable⟩ := decided <;> rfl

theorem evolves_answerVote (clock : Clock) (request : VoteRequest) (s : Server σ μ) :
    Evolves s (s.answerVote clock request).state := by
  have hdecided := evolves_decideVote request s
  unfold Server.answerVote
  split
  · generalize s.decideVote request = decided at hdecided ⊢
    obtain ⟨_ | reply, s'⟩ := decided
    · exact hdecided
    · show Evolves s (if reply.granted then _ else s')
      split
      · exact hdecided.trans (.of_eq rfl)
      · exact hdecided
  · exact hdecided
  · exact .of_eq rfl

theorem evolves_requestVote (clock : Clock) (request : VoteRequest) (s : Server σ μ) :
    Evolves s (s.requestVote clock request).state := by
  have hstepped := evolves_stepDown clock request.term s
  unfold Server.requestVote
  generalize s.stepDown clock request.term = stepped at hstepped ⊢
  obtain ⟨_ | _, s'⟩ := stepped
  · exact hstepped
  · exact hstepped.trans (evolves_answerVote clock request s')

theorem evolves_submit (command : Bytes) (s : Server σ μ) :
    Evolves s (s.submit command).state := by
  unfold Server.submit
  split
  · next leader _ =>
    split
    · exact .of_eq rfl
    · refine .of_perform (.appendCommand leader.term command) ?_
      show _ = (s.durable.appendCommand leader.term command).state
      generalize s.durable.appendCommand leader.term command = appended
      obtain ⟨_ | _ | entry, durable⟩ := appended <;> rfl
  · exact .of_eq rfl

theorem evolves_concede (clock : Clock) (term : Nat) (s : Server σ μ) :
    Evolves s (s.concede clock term).state :=
  .of_perform (.adoptTerm term) (concede_durable clock term s)

variable [StateMachine μ]

theorem evolves_takeEntries (clock : Clock) (request : AppendRequest) (s : Server σ μ) :
    Evolves s (s.takeEntries clock request).state := by
  rcases Nat.lt_or_ge request.term s.term with hlt | hge
  · unfold Server.takeEntries
    rw [if_pos hlt]
    exact .of_eq rfl
  · exact .of_perform (.append request.entries request.prev)
      (takeEntries_durable clock request s hge)

theorem evolves_answerEntries (clock : Clock) (request : AppendRequest) (s : Server σ μ) :
    Evolves s (s.answerEntries clock request).state := by
  unfold Server.answerEntries
  split
  · exact evolves_takeEntries clock request s
  · split
    · exact .of_eq rfl
    · have hconceded := evolves_concede clock request.term s
      generalize s.concede clock request.term = conceded at hconceded ⊢
      obtain ⟨_ | _, s'⟩ := conceded
      · exact hconceded
      · exact hconceded.trans (evolves_takeEntries clock request s')
  · exact .of_eq rfl

theorem evolves_appendEntries (clock : Clock) (request : AppendRequest) (s : Server σ μ) :
    Evolves s (s.appendEntries clock request).state := by
  have hstepped := evolves_stepDown clock request.term s
  unfold Server.appendEntries
  generalize s.stepDown clock request.term = stepped at hstepped ⊢
  obtain ⟨_ | _, s'⟩ := stepped
  · exact hstepped
  · exact hstepped.trans (evolves_answerEntries clock request s')

/-! ## Leaders -/

omit [Storage σ] in
theorem leaderTurn_durable (clock : Clock) (branch : Branch) (leader : Leader)
    (s : Server σ μ) : (s.leaderTurn clock branch leader).server.durable = s.durable := by
  obtain ⟨committed, applied, machine, heq⟩ := (takes_leaderTurn clock branch leader s).server
  rw [heq]

theorem evolves_runLeader (clock : Clock) (branch : Branch) (leader : Leader) (s : Server σ μ) :
    Evolves s (s.runLeader clock branch leader).2 := by
  have hturn := leaderTurn_durable clock branch leader s
  unfold Server.runLeader
  generalize s.leaderTurn clock branch leader = turn at hturn ⊢
  simp only
  split
  · exact .of_eq hturn
  · exact .of_eq hturn
  · exact .of_eq ((recover_durable clock _).trans hturn)
  · next term _ =>
    have hstepped : Evolves s
        (({ turn.server with role := .leader { turn.leader with phase := .ended } } :
          Server σ μ).stepDown clock term).state :=
      .trans (.of_eq hturn) (evolves_stepDown clock term _)
    split
    · exact hstepped
    · exact hstepped.trans (.of_eq (recover_durable clock _))

theorem evolves_runRetired (clock : Clock) (branch : Branch) (i : Nat) (s : Server σ μ) :
    Evolves s (s.runRetired clock branch i).2 := by
  unfold Server.runRetired
  split
  · next leader _ =>
    have hturn := leaderTurn_durable clock branch leader s
    generalize s.leaderTurn clock branch leader = turn at hturn ⊢
    simp only
    split
    · exact .of_eq hturn
    · exact .of_eq hturn
    · exact .of_eq hturn
    · exact .trans (.of_eq hturn) (evolves_stepDown clock _ _)
  · exact .of_eq rfl
  · exact .of_eq rfl

theorem evolves_runRole (clock : Clock) (branch : Branch) (s : Server σ μ) :
    Evolves s (s.runRole clock branch).2 := by
  unfold Server.runRole
  split
  · exact .of_eq rfl
  · exact evolves_candidateTurn clock _ s
  · exact evolves_runLeader clock branch _ s

/-! ## Steps -/

/-- Whatever happens to a server, its durable state only undergoes operations. -/
theorem evolves_step (clock : Clock) (event : Event) (s : Server σ μ) :
    Evolves s (s.step clock event).server := by
  cases event with
  | requestVote request => exact evolves_requestVote clock request s
  | appendEntries request => exact evolves_appendEntries clock request s
  | submit command => exact evolves_submit command s
  | voteResult term result => exact .of_eq (countVote_durable term result s)
  | appendResult term report =>
    show Evolves s (s.handOutcome clock term report).2
    unfold Server.handOutcome
    split
    · exact evolves_runRole clock _ s
    · split
      · exact evolves_runRetired clock _ _ s
      · exact .of_eq rfl
  | timerFires => exact .of_eq rfl
  | takeTimeout => exact .of_eq (takeTimeout_durable s)
  | turn branch => exact evolves_runRole clock branch s
  | retiredTurn place branch => exact evolves_runRetired clock branch place s
  | shutDown => exact .of_eq (shutDown_durable s)

/-- A server that was started some time ago, on whatever disk, and to which anything may have
    happened since. -/
inductive Reachable : Server σ μ → Prop where
  | start {clock : Clock} {config : Configuration} {channels : List ServerId} {disk : σ}
      {machine : μ} {s : Server σ μ}
      (h : Server.start clock config channels disk machine = .ok s) : Reachable s
  | step {s : Server σ μ} (clock : Clock) (event : Event) (h : Reachable s) :
      Reachable (s.step clock event).server

end

theorem Evolves.coherent [LawfulStorage σ] {s s' : Server σ μ} (h : Evolves s s')
    (hcoherent : s.durable.Coherent) : s'.durable.Coherent := by
  obtain ⟨ops, -, heq⟩ := h
  rw [heq]
  exact hcoherent.after ops

/-- Memory and disk of a server agree at all times. -/
theorem Reachable.coherent [LawfulStorage σ] [StateMachine μ] {s : Server σ μ}
    (h : s.Reachable) : s.durable.Coherent := by
  induction h with
  | start hstart =>
    obtain ⟨-, peers, durable, -, hload, rfl⟩ := start_eq hstart
    exact (DurableState.load_eq hload).2.2.2.2
  | step clock event _ ih => exact (evolves_step clock event _).coherent ih

end Quorum.Server
