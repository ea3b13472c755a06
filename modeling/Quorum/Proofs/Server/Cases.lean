import Quorum.Proofs.Server.InOrder
import Quorum.Proofs.Server.Lifetime

set_option autoImplicit false

/-! # What an event can come to

Every event is a few of the things that `Moves` lists, one after the other, or else the turn of a
candidate that opens a round or has won one. In particular a server is in order at all times.
Nothing is assumed of the events, nor of the disk. -/

namespace Quorum

variable {σ μ : Type} {s : Server σ μ}

/-- The server goes on as the same leader. -/
theorem Leader.Takes.leads {leader leader' : Leader} {turn : Turn σ μ}
    (htakes : leader.Takes s turn) (hrole : s.role = .leader leader)
    (hterm : leader'.term = leader.term) (hstopped : leader'.stopped = leader.stopped)
    (hphase : leader'.phase = .ended → leader.phase = .ended ∨ leader.stopped) :
    s.Becomes { turn.server with role := .leader leader' } := by
  have hadvances := htakes.server
  obtain ⟨committed, applied, machine, hserver⟩ := htakes.server
  refine (Server.Moves.advances hadvances).becomes.tail
    (.leads leader leader' ?_ hterm hstopped hphase)
  rw [hserver]
  exact hrole

/-- The server gives up leading. -/
theorem Leader.Takes.follows {leader leader' : Leader} {turn : Turn σ μ}
    (htakes : leader.Takes s turn) (hrole : s.role = .leader leader) (clock : Clock)
    {durable : DurableState σ} (hid : durable.id = s.durable.id) (hguarded : durable.Guarded) :
    s.Becomes (({ turn.server with durable, role := .leader leader' } : Server σ μ).becomeFollower
      clock) := by
  have hadvances := htakes.server
  obtain ⟨committed, applied, machine, hserver⟩ := htakes.server
  refine (Server.Moves.advances hadvances).becomes.tail
    (.follows clock durable (.leader leader') ?_ hguarded ?_)
  · rw [hserver]
    exact hid
  · rw [hserver]
    show _ = s.role.mode
    rw [hrole]
    rfl

/-- The loop of the leader has failed, and the server gives up leading. If it is shut down, it has
    told the loop to end before, and keeps its role. -/
theorem Leader.Takes.recovers {leader : Leader} {turn : Turn σ μ} (htakes : leader.Takes s turn)
    (h : s.InOrder) (hrole : s.role = .leader leader) (clock : Clock) (disk : σ) :
    s.Becomes
      (({ turn.server with
        durable := { s.durable with disk }
        role := (Role.leader { turn.leader with phase := .ended }).stop } : Server σ μ).recover
          clock) := by
  obtain ⟨committed, applied, machine, hserver⟩ := htakes.server
  unfold Server.recover
  split
  · next hdown =>
    have htold : leader.stopped = true := by
      rw [hserver] at hdown
      exact (h.leader hrole).stopped.trans hdown
    have hleads : s.Becomes { turn.server with
        role := (Role.leader { turn.leader with phase := .ended }).stop } :=
      htakes.leads hrole htakes.term htold.symm fun _ => Or.inr htold
    refine hleads.tail (.writes { s.durable with disk } ?_ fun _ _ => ?_)
    · rw [hserver]
      exact s.durable.retains_disk disk
    · rw [hserver]
  · exact htakes.follows hrole clock rfl h.guarded

/-- Whether a turn of the candidate's loop opens a round, if the disk allows it. -/
def Candidate.isReady (candidate : Candidate) : Bool :=
  !candidate.stopped &&
    match candidate.phase with
    | .starting => true
    | .waiting => candidate.timedOut
    | .counting .. | .ended => false

namespace Server

variable [Storage σ]

/-! ## Adopting a term -/

/-- Only a newer term makes a server step down, and only such a term can fail to be adopted. -/
theorem stepDown_cases (clock : Clock) (term : Nat) (s : Server σ μ) :
    (term ≤ s.term ∧ s.stepDown clock term = .ok false s) ∨
      s.term < term ∧
        ((∃ disk, s.stepDown clock term =
            .ok true
              (({ s with durable := { s.durable with ballot := ⟨term, none⟩, disk } } :
                Server σ μ).becomeFollower clock)) ∨
          ∃ e disk, s.stepDown clock term =
            .error (.storage e) { s with durable := { s.durable with disk } }) := by
  unfold Server.stepDown
  rcases s.durable.adoptTerm_cases term with
    ⟨hle, hadopted⟩ | ⟨hlt, ⟨disk, hadopted⟩ | ⟨e, disk, hadopted⟩⟩ <;> rw [hadopted]
  · exact Or.inl ⟨hle, rfl⟩
  · exact Or.inr ⟨hlt, Or.inl ⟨disk, rfl⟩⟩
  · exact Or.inr ⟨hlt, Or.inr ⟨e, disk, rfl⟩⟩

theorem becomes_stepDown (clock : Clock) (term : Nat) (s : Server σ μ) :
    s.Becomes (s.stepDown clock term).state := by
  rcases stepDown_cases clock term s with ⟨-, h⟩ | ⟨-, ⟨disk, h⟩ | ⟨e, disk, h⟩⟩ <;> rw [h]
  · exact .refl
  · exact (Moves.follows clock { s.durable with ballot := ⟨term, none⟩, disk } s.role rfl
      (DurableState.guarded_of_vote_eq_none rfl) rfl).becomes
  · exact (Moves.writes _ (s.durable.retains_disk disk) fun _ _ => rfl).becomes

/-! ## Votes -/

theorem becomes_decideVote (request : VoteRequest) (s : Server σ μ) :
    s.Becomes (s.decideVote request).state := by
  unfold Server.decideVote
  split
  · exact .refl
  · rcases s.durable.grantVote_cases request.term request.candidate request.last with
      ⟨granted, h⟩ | ⟨hvoted, ⟨disk, h⟩ | ⟨e, disk, h⟩⟩ <;> rw [h]
    · exact .refl
    · exact (Moves.votes request.candidate disk hvoted).becomes
    · exact (Moves.writes _ (s.durable.retains_disk disk) fun _ _ => rfl).becomes

theorem decideVote_role (request : VoteRequest) (s : Server σ μ) :
    (s.decideVote request).state.role = s.role := by
  unfold Server.decideVote
  simp only
  split
  · rfl
  · split <;> rfl

theorem becomes_answerVote (clock : Clock) (request : VoteRequest) (s : Server σ μ) :
    s.Becomes (s.answerVote clock request).state := by
  have hdecided := becomes_decideVote request s
  unfold Server.answerVote
  split
  · next hrole =>
    have hfollower := decideVote_role request s
    generalize s.decideVote request = decided at hdecided hfollower ⊢
    obtain ⟨_ | reply, s'⟩ := decided
    · exact hdecided
    · show s.Becomes (if reply.granted then _ else s')
      split
      · exact hdecided.tail (.hears clock s'.volatile.leader (hfollower.trans hrole))
      · exact hdecided
  · exact hdecided
  · exact .refl

theorem becomes_requestVote (clock : Clock) (request : VoteRequest) (s : Server σ μ) :
    s.Becomes (s.requestVote clock request).state := by
  have hstepped := becomes_stepDown clock request.term s
  unfold Server.requestVote
  generalize s.stepDown clock request.term = stepped at hstepped ⊢
  obtain ⟨_ | _, s'⟩ := stepped
  · exact hstepped
  · exact hstepped.trans (becomes_answerVote clock request s')

/-! ## Commands -/

theorem becomes_submit (command : Bytes) (s : Server σ μ) :
    s.Becomes (s.submit command).state := by
  unfold Server.submit
  split
  · next leader hrole =>
    split
    · exact .refl
    · have hretains := s.durable.retains_appendCommand leader.term command
      generalize s.durable.appendCommand leader.term command = appended at hretains ⊢
      have hwrites : s.Becomes { s with durable := appended.state } :=
        (Moves.writes _ hretains fun term hrunning => by rw [hrole] at hrunning; cases hrunning).becomes
      obtain ⟨_ | _ | entry, durable⟩ := appended
      · exact hwrites
      · exact hwrites
      · exact hwrites.tail (.leads leader { leader with awake := true } hrole rfl rfl Or.inl)
  · exact .refl

/-! ## Candidates -/

omit [Storage σ] in
theorem recover_eq (clock : Clock) (hup : s.isShutDown = false) :
    s.recover clock = s.becomeFollower clock := by
  unfold Server.recover
  rw [if_neg (by simp [hup])]

/-- A round is opened; or there is no next term, or the disk refuses, and nobody is asked. -/
theorem openRound_cases (clock : Clock) (candidate : Candidate) (s : Server σ μ) :
    (∃ disk, s.durable.openTerm.result = .ok (s.term + 1) ∧
        s.openRound clock candidate =
          (s.peers.map fun peer => ⟨peer, .vote (s.voteRequest (s.term + 1))⟩,
            s.opened clock candidate disk)) ∨
      s.durable.openTerm.result.toOption = none ∧
        ((wordLimit ≤ s.term + 1 ∧
            s.openRound clock candidate = ([], s.enterPhase candidate .ended)) ∨
          ∃ disk, s.openRound clock candidate =
            ([], (({ s with durable := { s.durable with disk } } : Server σ μ).enterPhase candidate
              .ended).recover clock)) := by
  unfold Server.openRound
  rcases s.durable.openTerm_cases with ⟨hlast, hopened⟩ | ⟨disk, hopened⟩ | ⟨e, disk, hopened⟩ <;>
    rw [hopened]
  · exact Or.inr ⟨rfl, Or.inl ⟨hlast, rfl⟩⟩
  · exact Or.inl ⟨disk, rfl, rfl⟩
  · exact Or.inr ⟨rfl, Or.inr ⟨disk, rfl⟩⟩

/-- In the term of a round that was opened, a newer term is adopted and the candidate gives up. -/
theorem becomes_abandonRound (h : s.InOrder) (clock : Clock) {candidate : Candidate}
    {term newer : Nat} {tally : Tally} (hrole : s.role = .candidate candidate)
    (hphase : candidate.phase = .counting term tally) (hup : s.isShutDown = false)
    (hnewer : term < newer) : s.Becomes (s.abandonRound clock candidate newer) := by
  have hterm : s.term = term :=
    congrArg Ballot.term ((h.candidate hrole).counting term tally hphase).1
  have hmode : (Role.candidate { candidate with phase := .ended }).mode = s.role.mode := by
    rw [hrole]
    rfl
  unfold Server.abandonRound
  rcases stepDown_cases clock newer (s.enterPhase candidate .ended) with
    ⟨hle, -⟩ | ⟨-, ⟨disk, heq⟩ | ⟨e, disk, heq⟩⟩
  · have hle : newer ≤ s.term := hle
    omega
  · rw [heq]
    exact (Moves.follows clock { s.durable with ballot := ⟨newer, none⟩, disk } _ rfl
      (DurableState.guarded_of_vote_eq_none rfl) hmode).becomes
  · rw [heq]
    show s.Becomes (Server.recover clock _)
    rw [recover_eq]
    · exact (Moves.follows clock { s.durable with disk } _ rfl h.guarded hmode).becomes
    · exact hup

omit [Storage σ] in
/-- A candidate that has won is still in the term of its round. -/
theorem becomeLeader_eq (h : s.InOrder) {candidate : Candidate} {term : Nat} {tally : Tally}
    (hrole : s.role = .candidate candidate) (hphase : candidate.phase = .counting term tally)
    (hup : s.isShutDown = false) : s.becomeLeader candidate term = s.elected term := by
  have hterm : s.term = term :=
    congrArg Ballot.term ((h.candidate hrole).counting term tally hphase).1
  unfold Server.becomeLeader
  rw [if_neg (by simp [hup, hterm])]
  rfl

omit [Storage σ] in
theorem becomes_countVote (term : Nat) (result : Except CallError VoteReply) (s : Server σ μ) :
    s.Becomes (s.countVote term result) := by
  unfold Server.countVote
  split
  · next candidate hrole =>
    split
    · next round tally hphase =>
      split
      · exact (Moves.counts candidate round tally _ hrole hphase (Or.inr ⟨_, rfl⟩)).becomes
      · exact .refl
    · exact .refl
  · exact .refl

/-! ## Rounds -/

/-- The request of the round that an event opens. -/
def opens? (s : Server σ μ) : Event → Option VoteRequest
  | .turn _ =>
      match s.role with
      | .candidate candidate =>
          if candidate.isReady then s.durable.openTerm.result.toOption.map s.voteRequest else none
      | _ => none
  | _ => none

/-- Calls that send entries. -/
def SendsEntriesOnly (calls : List Call) : Prop :=
  ∀ call ∈ calls, ∃ request, call.request = .append request

/-- What an event can come to, with the calls that it brings. -/
inductive Comes (s : Server σ μ) (event : Event) : List Call → Server σ μ → Prop where
  | becomes {calls : List Call} {s' : Server σ μ} (hopens : s.opens? event = none)
      (hcalls : SendsEntriesOnly calls) (h : s.Becomes s') : Comes s event calls s'
  | opens (clock : Clock) (candidate : Candidate) (disk : σ)
      (hopens : s.opens? event = some (s.voteRequest (s.term + 1)))
      (hrole : s.role = .candidate candidate) :
      Comes s event (s.peers.map fun peer => ⟨peer, .vote (s.voteRequest (s.term + 1))⟩)
        (s.opened clock candidate disk)
  | wins (candidate : Candidate) (term : Nat) (tally : Tally) (hopens : s.opens? event = none)
      (hrole : s.role = .candidate candidate) (hphase : candidate.phase = .counting term tally) :
      Comes s event [] (s.elected term)

omit [Storage σ] in
theorem sendsEntriesOnly_nil : SendsEntriesOnly [] := List.forall_mem_nil _

omit [Storage σ] in
theorem sendsEntriesOnly_of_takes {leader : Leader} {turn : Turn σ μ}
    (htakes : leader.Takes s turn) : SendsEntriesOnly turn.calls := by
  intro call hcall
  obtain ⟨request, hrequest, -⟩ := htakes.calls call hcall
  exact ⟨request, hrequest⟩

/-- A turn of the loop of the present candidate. -/
theorem comes_candidateTurn (h : s.InOrder) (clock : Clock) (branch : Branch)
    {candidate : Candidate} (hrole : s.role = .candidate candidate) :
    s.Comes (.turn branch) (s.candidateTurn clock candidate).1
      (s.candidateTurn clock candidate).2 := by
  have hopens : s.opens? (.turn branch) =
      if candidate.isReady then s.durable.openTerm.result.toOption.map s.voteRequest else none := by
    unfold opens?
    rw [hrole]
  have hstays : ∀ {s' : Server σ μ}, ¬ candidate.isReady → s.Becomes s' →
      s.Comes (.turn branch) [] s' := fun hready hbecomes =>
    .becomes (hopens.trans (if_neg hready)) sendsEntriesOnly_nil hbecomes
  have hopensRound : s.isShutDown = false → candidate.isReady →
      s.Comes (.turn branch) (s.openRound clock candidate).1 (s.openRound clock candidate).2 := by
    intro hup hready
    rw [if_pos hready] at hopens
    rcases openRound_cases clock candidate s with
      ⟨disk, hok, heq⟩ | ⟨hnone, ⟨hlast, heq⟩ | ⟨disk, heq⟩⟩
    · rw [hok] at hopens
      rw [heq]
      exact .opens clock candidate disk hopens hrole
    · rw [hnone] at hopens
      rw [heq]
      exact .becomes hopens sendsEntriesOnly_nil (Moves.ends candidate hrole (Or.inr hlast)).becomes
    · rw [hnone] at hopens
      rw [heq]
      refine .becomes hopens sendsEntriesOnly_nil ?_
      show s.Becomes (Server.recover clock _)
      rw [recover_eq]
      · exact (Moves.follows clock { s.durable with disk }
          (.candidate { candidate with phase := .ended }) rfl h.guarded (by rw [hrole]; rfl)).becomes
      · exact hup
  unfold Server.candidateTurn
  split
  · next hstopped =>
    exact hstays (by simp [Candidate.isReady, hstopped])
      (Moves.ends candidate hrole (Or.inl hstopped)).becomes
  · next hrunning =>
    have hrunning : candidate.stopped = false := by simpa using hrunning
    have hup : s.isShutDown = false := (h.candidate hrole).stopped.symm.trans hrunning
    split
    · next hphase => exact hopensRound hup (by simp [Candidate.isReady, hrunning, hphase])
    · next term tally hphase =>
      have hready : ¬ candidate.isReady := by simp [Candidate.isReady, hphase]
      unfold Server.judgeRound
      split
      · next hnewer => exact hstays hready (becomes_abandonRound h clock hrole hphase hup hnewer)
      · split
        · rw [becomeLeader_eq h hrole hphase hup]
          exact .wins candidate term tally (hopens.trans (if_neg hready)) hrole hphase
        · split
          · exact hstays hready
              (Moves.counts candidate term tally .waiting hrole hphase (Or.inl rfl)).becomes
          · exact hstays hready .refl
    · next hphase =>
      split
      · next htimedOut =>
        exact hopensRound hup (by simp [Candidate.isReady, hrunning, hphase, htimedOut])
      · next htimedOut =>
        exact hstays (by simp [Candidate.isReady, hphase, htimedOut]) .refl
    · next hphase => exact hstays (by simp [Candidate.isReady, hphase]) .refl

/-! ## Entries -/

variable [StateMachine μ]

theorem becomes_takeEntries (clock : Clock) (request : AppendRequest) (hrole : s.role = .follower) :
    s.Becomes (s.takeEntries clock request).state := by
  have htakes := takesEntries_takeEntries clock request s
  generalize s.takeEntries clock request = taken at htakes ⊢
  have hretains := s.durable.retains_append request.entries request.prev
  have hheard : ∀ durable, s.durable.Retains durable →
      s.Becomes (s.heard clock request.leader durable) := fun durable hretains =>
    (Moves.hears clock (some request.leader) hrole).becomes.tail
      (.writes _ hretains fun term hrunning => by rw [hrole] at hrunning; cases hrunning)
  cases htakes with
  | outdated => exact .refl
  | commits _ happend _ hs' =>
    rw [happend] at hretains
    subst hs'
    refine (hheard _ hretains).trans (Moves.advances ?_).becomes
    exact .trans ⟨min request.commit _, s.volatile.applied, s.machine, rfl⟩
      (advances_applyEntries _)
  | _ _ happend =>
    rw [happend] at hretains
    exact hheard _ hretains

omit [StateMachine μ] in
/-- In a term that has been reached, conceding writes nothing and cannot fail. -/
theorem concede_eq (clock : Clock) {term : Nat} (hle : term ≤ s.term) :
    s.concede clock term =
      .ok () (({ s with role := s.role.stop } : Server σ μ).becomeFollower clock) := by
  unfold Server.concede DurableState.adoptTerm
  simp only [if_pos hle]
  rfl

theorem becomes_answerEntries (h : s.InOrder) (clock : Clock) {request : AppendRequest}
    (hle : request.term ≤ s.term) : s.Becomes (s.answerEntries clock request).state := by
  unfold Server.answerEntries
  split
  · next hrole => exact becomes_takeEntries clock request hrole
  · next candidate hrole =>
    split
    · exact .refl
    · rw [concede_eq clock hle, Attempt.andThen_ok]
      have hconcedes : s.Becomes (({ s with role := s.role.stop } : Server σ μ).becomeFollower clock) :=
        (Moves.follows clock s.durable s.role.stop rfl h.guarded (by rw [hrole]; rfl)).becomes
      exact hconcedes.trans (becomes_takeEntries clock request (becomeFollower_role clock _))
  · exact .refl

theorem becomes_appendEntries (h : s.InOrder) (clock : Clock) (request : AppendRequest) :
    s.Becomes (s.appendEntries clock request).state := by
  have hstepped := becomes_stepDown clock request.term s
  have hreached : ∀ newer, (s.stepDown clock request.term).result = .ok newer →
      request.term ≤ (s.stepDown clock request.term).state.term :=
    fun _ => term_le_of_stepDown clock request.term s
  unfold Server.appendEntries
  generalize s.stepDown clock request.term = stepped at hstepped hreached ⊢
  obtain ⟨_ | newer, s'⟩ := stepped
  · exact hstepped
  · exact hstepped.trans
      (becomes_answerEntries (h.becomes hstepped) clock (hreached newer rfl))

/-! ## Leaders -/

/-- A turn of the loop of the present leader. -/
theorem becomes_runLeader (h : s.InOrder) (clock : Clock) (branch : Branch) {leader : Leader}
    (hrole : s.role = .leader leader) : s.Becomes (s.runLeader clock branch leader).2 := by
  have htakes := takes_leaderTurn clock branch leader s
  unfold Server.runLeader
  generalize s.leaderTurn clock branch leader = turn at htakes ⊢
  obtain ⟨calls, leader', server, verdict⟩ := turn
  have hserver : s.Advances server := htakes.server
  obtain ⟨committed, applied, machine, rfl⟩ := hserver
  cases verdict with
  | goesOn =>
    exact htakes.leads hrole htakes.term htakes.stopped fun hended =>
      absurd hended (htakes.goesOn rfl).2
  | halts =>
    exact htakes.leads hrole htakes.term htakes.stopped fun _ => (htakes.halts rfl).symm
  | fails e => exact htakes.recovers h hrole clock s.durable.disk
  | stepsDown newer =>
    have hnewer : s.term < newer := by
      have hterm : s.term = leader.term := congrArg Ballot.term (h.leader hrole).ballot
      rw [hterm]
      exact htakes.stepsDown newer rfl
    dsimp only
    generalize hended : ({ s with
      volatile := { s.volatile with committed, applied }
      machine
      role := .leader { leader' with phase := .ended } } : Server σ μ) = ended
    rcases stepDown_cases clock newer ended with ⟨hle, -⟩ | ⟨-, ⟨disk, heq⟩ | ⟨e, disk, heq⟩⟩
    · rw [← hended] at hle
      exact absurd hle (Nat.not_le_of_lt hnewer)
    · rw [heq, ← hended]
      exact htakes.follows hrole clock rfl (DurableState.guarded_of_vote_eq_none rfl)
    · rw [heq, ← hended]
      exact htakes.recovers h hrole clock disk

/-- A turn of a loop whose role was given up. -/
theorem becomes_runRetired (clock : Clock) (branch : Branch) (place : Nat) (s : Server σ μ) :
    s.Becomes (s.runRetired clock branch place).2 := by
  have herases : (∀ role ∈ s.retired, role.isStopped) →
      ∀ role ∈ s.retired.eraseIdx place, role.isStopped :=
    fun hretired role hmem => hretired role (List.mem_of_mem_eraseIdx hmem)
  unfold Server.runRetired
  split
  · next leader hplace =>
    have htakes := takes_leaderTurn clock branch leader s
    generalize s.leaderTurn clock branch leader = turn at htakes ⊢
    have hadvances := htakes.server
    obtain ⟨committed, applied, machine, hserver⟩ := htakes.server
    have hsame : turn.server.retired = s.retired := by rw [hserver]
    have hforgets : s.Becomes { turn.server with retired := s.retired.eraseIdx place } :=
      (Moves.advances hadvances).becomes.tail (.retires _ (hsame ▸ herases))
    simp only
    split
    · refine (Moves.advances hadvances).becomes.tail (.retires _ fun hretired role hmem => ?_)
      rw [hsame] at hretired
      rcases List.mem_or_eq_of_mem_set hmem with hold | rfl
      · exact hretired role hold
      · exact htakes.stopped.trans (hretired _ (List.mem_of_getElem? hplace))
    · exact hforgets
    · exact hforgets
    · exact hforgets.trans (becomes_stepDown clock _ _)
  · exact (Moves.retires _ herases).becomes
  · exact .refl

/-- What the loop of a leader sends is what its turn sends. -/
theorem runLeader_calls (clock : Clock) (branch : Branch) (leader : Leader) (s : Server σ μ) :
    (s.runLeader clock branch leader).1 = (s.leaderTurn clock branch leader).calls := by
  unfold Server.runLeader
  simp only
  split
  · rfl
  · rfl
  · rfl
  · split <;> rfl

/-- A turn of a loop whose role was given up only sends entries. -/
theorem sendsEntriesOnly_runRetired (clock : Clock) (branch : Branch) (place : Nat)
    (s : Server σ μ) : SendsEntriesOnly (s.runRetired clock branch place).1 := by
  cases hplace : s.retired[place]? with
  | none =>
    unfold Server.runRetired
    rw [hplace]
    exact sendsEntriesOnly_nil
  | some role =>
    cases role with
    | leader leader =>
      rw [runRetired_calls clock branch hplace]
      exact sendsEntriesOnly_of_takes (takes_leaderTurn clock branch leader s)
    | _ =>
      unfold Server.runRetired
      rw [hplace]
      exact sendsEntriesOnly_nil

/-- A turn of the loop of the present leader. -/
theorem comes_runLeader (h : s.InOrder) (clock : Clock) (branch : Branch) {event : Event}
    {leader : Leader} (hrole : s.role = .leader leader) (hopens : s.opens? event = none) :
    s.Comes event (s.runLeader clock branch leader).1 (s.runLeader clock branch leader).2 := by
  refine .becomes hopens ?_ (becomes_runLeader h clock branch hrole)
  rw [runLeader_calls]
  exact sendsEntriesOnly_of_takes (takes_leaderTurn clock branch leader s)

/-! ## Steps -/

/-- What an event can come to. -/
theorem InOrder.comes (h : s.InOrder) (clock : Clock) (event : Event) :
    s.Comes event (s.step clock event).calls (s.step clock event).server := by
  have hquiet : ∀ {s' : Server σ μ}, s.opens? event = none → s.Becomes s' →
      s.Comes event [] s' := fun hopens hbecomes => .becomes hopens sendsEntriesOnly_nil hbecomes
  cases event with
  | requestVote request => exact hquiet rfl (becomes_requestVote clock request s)
  | appendEntries request => exact hquiet rfl (becomes_appendEntries h clock request)
  | submit command => exact hquiet rfl (becomes_submit command s)
  | voteResult term result => exact hquiet rfl (becomes_countVote term result s)
  | appendResult term report =>
    show s.Comes _ (s.handOutcome clock term report).1 (s.handOutcome clock term report).2
    unfold Server.handOutcome
    split
    · next hleads =>
      unfold Server.runRole
      split
      · next hrole => rw [hrole] at hleads; cases hleads
      · next candidate hrole => rw [hrole] at hleads; cases hleads
      · next leader hrole => exact comes_runLeader h clock _ hrole rfl
    · split
      · exact .becomes rfl (sendsEntriesOnly_runRetired clock _ _ s) (becomes_runRetired clock _ _ s)
      · exact hquiet rfl .refl
  | timerFires => exact hquiet rfl Moves.fires.becomes
  | takeTimeout => exact hquiet rfl Moves.looks.becomes
  | turn branch =>
    show s.Comes _ (s.runRole clock branch).1 (s.runRole clock branch).2
    unfold Server.runRole
    split
    · next hrole => exact hquiet (by unfold opens?; rw [hrole]) .refl
    · next candidate hrole => exact comes_candidateTurn h clock branch hrole
    · next leader hrole =>
      exact comes_runLeader h clock branch hrole (by unfold opens?; rw [hrole])
  | retiredTurn place branch =>
    exact .becomes rfl (sendsEntriesOnly_runRetired clock branch place s)
      (becomes_runRetired clock branch place s)
  | shutDown => exact hquiet rfl Moves.shutsDown.becomes

/-- One event leaves a server in order. -/
theorem InOrder.step (h : s.InOrder) (clock : Clock) (event : Event) :
    (s.step clock event).server.InOrder := by
  have hcomes := h.comes clock event
  generalize (s.step clock event).calls = calls at hcomes
  generalize (s.step clock event).server = s' at hcomes ⊢
  cases hcomes with
  | becomes hopens hcalls hbecomes => exact h.becomes hbecomes
  | opens clock candidate disk hopens hrole => exact h.opened clock hrole disk
  | wins candidate term tally hopens hrole hphase => exact h.elected hrole hphase

omit [StateMachine μ] in
/-- A server starts in order: it is a follower whose timer runs. -/
theorem inOrder_of_start {clock : Clock} {config : Configuration} {channels : List ServerId}
    {disk : σ} {machine : μ} (h : Server.start clock config channels disk machine = .ok s) :
    s.InOrder := by
  obtain ⟨-, peers, durable, -, hload, rfl⟩ := start_eq h
  obtain ⟨hid, hguarded⟩ := DurableState.guarded_of_load hload
  exact ⟨hid, hguarded, ElectionTimer.left_nil _, fun _ => ElectionTimer.expected_restart _ _ _ _,
    List.forall_mem_nil _⟩

/-- A server is in order at all times. -/
theorem Reachable.inOrder (h : s.Reachable) : s.InOrder := by
  induction h with
  | start hstart => exact inOrder_of_start hstart
  | step clock event _ ih => exact ih.step clock event

end Server

end Quorum
