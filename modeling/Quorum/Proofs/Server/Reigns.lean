import Quorum.Proofs.Server.Applying
import Quorum.Proofs.Server.Bookkeeping

set_option autoImplicit false

/-! # A reign

The time for which a server leads one term, from its election until it gives up the role or its loop
ends. The peers may answer anything, and anything else may happen in between: requests, commands,
turns of older loops, and a disk that fails. The books of the leader stay right throughout. -/

namespace Quorum

variable {σ μ : Type}

/-- The branch that an event makes the loop of the leader of a term take. -/
def Event.branchOf? (term : Nat) : Event → Option Branch
  | .turn branch => some branch
  | .appendResult issued report => if issued = term then some (.outcome report) else none
  | _ => none

namespace Server

/-- The server leads the term, and its loop has not ended. -/
def Leads (s : Server σ μ) (term : Nat) : Prop :=
  ∃ leader, s.role = .leader leader ∧ leader.term = term ∧ leader.phase ≠ .ended

/-- A server whose log holds all that it has committed, and is on its disk but for what may stand
    there behind the end of it. -/
structure Fit (s : Server σ μ) : Prop extends Reaches s where
  peers : s.peers.Nodup
  durable : s.durable.EndsAtDoubt

/-- What may happen to a leader while its loop does not have a turn: the log grows, and the loop is
    woken or told to end. -/
structure Spares (s s' : Server σ μ) : Prop where
  fit : s'.Fit
  peers : s'.peers = s.peers
  length_le : s.log.length ≤ s'.log.length
  role : ∀ leader, s.role = .leader leader →
    ∃ awake stopped, s'.role = .leader { leader with awake, stopped }

theorem Fit.spares {s : Server σ μ} (h : s.Fit) : Spares s s :=
  ⟨h, rfl, Nat.le_refl _, fun leader hrole => ⟨leader.awake, leader.stopped, hrole⟩⟩

/-- A write that has failed may have changed the disk. -/
theorem Spares.withDisk {s s' : Server σ μ} (h : Spares s s') (disk : σ) :
    Spares s { s' with durable := { s'.durable with disk } } :=
  ⟨⟨⟨h.fit.applied_le, h.fit.committed_le⟩, h.fit.peers, h.fit.durable⟩, h.peers, h.length_le,
    h.role⟩

variable [Storage σ] {s : Server σ μ} {leader : Leader}

/-! ## Requests -/

theorem stepDown_leader (clock : Clock) (term : Nat) (s : Server σ μ) :
    (∃ disk, (s.stepDown clock term).state = { s with durable := { s.durable with disk } }) ∨
      (s.stepDown clock term).state.role = .follower := by
  rcases stepDown_cases clock term s with ⟨-, heq⟩ | ⟨-, ⟨disk, heq⟩ | ⟨e, disk, heq⟩⟩ <;> rw [heq]
  · exact Or.inl ⟨s.durable.disk, rfl⟩
  · exact Or.inr (becomeFollower_role clock _)
  · exact Or.inl ⟨disk, rfl⟩

/-- A request makes a leader step down first if its term is newer, and then it is answered. -/
theorem stepDown_andThen_leader {α : Type} (h : s.Fit) (clock : Clock) (term : Nat)
    {answer : Bool → Server σ μ → Attempt EngineError α (Server σ μ)}
    (hleader : ∀ newer disk, (answer newer { s with durable := { s.durable with disk } }).state =
      { s with durable := { s.durable with disk } })
    (hfollower : ∀ newer s', s'.role = .follower → (answer newer s').state.role = .follower) :
    Spares s ((s.stepDown clock term).andThen answer).state ∨
      ((s.stepDown clock term).andThen answer).state.role = .follower := by
  have hstepped := stepDown_leader clock term s
  generalize s.stepDown clock term = stepped at hstepped ⊢
  obtain ⟨e | newer, s'⟩ := stepped
  · rcases hstepped with ⟨disk, rfl⟩ | hrole
    · exact Or.inl (h.spares.withDisk disk)
    · exact Or.inr hrole
  · rcases hstepped with ⟨disk, rfl⟩ | hrole
    · refine Or.inl ?_
      show Spares s (answer newer _).state
      rw [hleader]
      exact h.spares.withDisk disk
    · exact Or.inr (hfollower newer s' hrole)

theorem answerVote_role (clock : Clock) (request : VoteRequest) (s : Server σ μ) :
    (s.answerVote clock request).state.role = s.role := by
  have hdecided := decideVote_role request s
  unfold Server.answerVote
  split
  · generalize s.decideVote request = decided at hdecided ⊢
    obtain ⟨_ | reply, s'⟩ := decided
    · exact hdecided
    · show (if reply.granted then _ else s').role = _
      split <;> exact hdecided
  · exact hdecided
  · rfl

theorem requestVote_leader (h : s.Fit) (hrole : s.role = .leader leader) (clock : Clock)
    (request : VoteRequest) :
    Spares s (s.requestVote clock request).state ∨
      (s.requestVote clock request).state.role = .follower := by
  refine stepDown_andThen_leader h clock request.term (fun _ disk => ?_) fun _ s' hfollower =>
    (answerVote_role clock request s').trans hfollower
  -- a leader does not vote
  unfold Server.answerVote
  simp only [hrole]
  rfl

theorem submit_leader (h : s.Fit) (command : Bytes) :
    Spares s (s.submit command).state := by
  unfold Server.submit
  split
  · next leader hrole =>
    split
    · exact h.spares
    · rcases DurableState.appendCommand_cases h.durable leader.term command with
        heq | ⟨disk, heq⟩ | ⟨e, disk, heq⟩ <;> simp only [heq]
      · exact h.spares
      · have hlength : (s.log.push leader.term command).length = s.log.length + 1 := by
          rw [Log.length, Log.entries_push, List.length_append]
          rfl
        have hle : s.log.length ≤ (s.log.push leader.term command).length := by omega
        refine ⟨⟨⟨h.applied_le, Nat.le_trans h.committed_le hle⟩, h.peers,
          DurableState.endsAtDoubt_of_none rfl⟩, rfl, hle, ?_⟩
        intro leader' hrole'
        obtain rfl := Role.leader.inj (hrole.symm.trans hrole')
        exact ⟨true, leader.stopped, rfl⟩
      · exact ⟨⟨⟨h.applied_le, h.committed_le⟩, h.peers,
          fun start hstart => (Option.some.inj hstart).symm⟩, rfl, Nat.le_refl _,
          fun leader' hrole' => ⟨leader'.awake, leader'.stopped, hrole'⟩⟩
  · exact h.spares

variable [StateMachine μ]

theorem appendEntries_leader (h : s.Fit) (hrole : s.role = .leader leader) (clock : Clock)
    (request : AppendRequest) :
    Spares s (s.appendEntries clock request).state ∨
      (s.appendEntries clock request).state.role = .follower := by
  refine stepDown_andThen_leader h clock request.term (fun _ disk => ?_) fun _ s' hfollower => ?_
  · -- a leader takes no entries
    unfold Server.answerEntries
    simp only [hrole]
    rfl
  · unfold Server.answerEntries
    simp only [hfollower]
    exact (takeEntries_role clock request s').trans hfollower

/-! ## Older loops -/

omit [Storage σ] in
/-- Whoever's loop it is, a turn commits nothing that the log lacks. -/
theorem Reaches.leaderTurn (h : s.Reaches) (clock : Clock) (branch : Branch) (leader : Leader) :
    (s.leaderTurn clock branch leader).server.Reaches := by
  rcases leaderTurn_server clock branch leader s with heq | ⟨known, heq⟩ <;> rw [heq]
  · exact h
  · exact (h.commitMajority leader.term known).2

theorem runRetired_leader (h : s.Fit) (clock : Clock) (branch : Branch) (place : Nat) :
    Spares s (s.runRetired clock branch place).2 ∨
      (s.runRetired clock branch place).2.role = .follower := by
  have hforgets : ∀ retired, Spares s { s with retired } := fun retired =>
    ⟨⟨⟨h.applied_le, h.committed_le⟩, h.peers, h.durable⟩, rfl, Nat.le_refl _, h.spares.role⟩
  unfold Server.runRetired
  split
  · next older _ =>
    have hreaches := h.toReaches.leaderTurn clock branch older
    have htakes := (takes_leaderTurn clock branch older s).server
    generalize s.leaderTurn clock branch older = turn at hreaches htakes ⊢
    obtain ⟨calls, leader', server, verdict⟩ := turn
    obtain ⟨committed, applied, machine, rfl⟩ := htakes
    have hspares : ∀ retired, Spares s
        { s with
          volatile := { s.volatile with committed, applied }
          machine
          retired } := fun retired =>
      ⟨⟨⟨hreaches.applied_le, hreaches.committed_le⟩, h.peers, h.durable⟩, rfl, Nat.le_refl _,
        h.spares.role⟩
    cases verdict with
    | goesOn => exact Or.inl (hspares _)
    | halts => exact Or.inl (hspares _)
    | fails e => exact Or.inl (hspares _)
    | stepsDown term =>
      have hold := hspares (s.retired.eraseIdx place)
      simp only
      generalize ({ s with
        volatile := { s.volatile with committed, applied }
        machine
        retired := s.retired.eraseIdx place } : Server σ μ) = rest at hold ⊢
      refine (stepDown_leader clock term rest).imp_left fun ⟨disk, heq⟩ => ?_
      rw [heq]
      exact hold.withDisk disk
  · exact Or.inl (hforgets _)
  · exact Or.inl h.spares

/-! ## Events -/

/-- An event at which the loop of the present leader does not have a turn leaves its books alone, or
    ends its reign. -/
theorem spares_step (h : s.Fit) (hrole : s.role = .leader leader) (clock : Clock) {event : Event}
    (hbranch : event.branchOf? leader.term = none) :
    Spares s (s.step clock event).server ∨ (s.step clock event).server.role = .follower := by
  have hsame : ∀ timer timeouts, Spares s { s with timer, timeouts } := fun timer timeouts =>
    ⟨⟨⟨h.applied_le, h.committed_le⟩, h.peers, h.durable⟩, rfl, Nat.le_refl _, h.spares.role⟩
  cases event with
  | requestVote request => exact requestVote_leader h hrole clock request
  | appendEntries request => exact appendEntries_leader h hrole clock request
  | submit command => exact Or.inl (submit_leader h command)
  | voteResult term result =>
    refine Or.inl ?_
    show Spares s (s.countVote term result)
    unfold Server.countVote
    rw [hrole]
    exact h.spares
  | appendResult issued report =>
    have hleads : s.role.leads issued = false := by
      have hne : ¬ issued = leader.term := fun heq => by simp [Event.branchOf?, heq] at hbranch
      rw [hrole]
      simpa [Role.leads] using Ne.symm hne
    show Spares s (s.handOutcome clock issued report).2 ∨
      (s.handOutcome clock issued report).2.role = .follower
    unfold Server.handOutcome
    rw [hleads, if_neg Bool.false_ne_true]
    split
    · exact runRetired_leader h clock _ _
    · exact Or.inl h.spares
  | timerFires => exact Or.inl (hsame _ _)
  | takeTimeout =>
    refine Or.inl ?_
    show Spares s s.takeTimeout
    unfold Server.takeTimeout
    split
    · exact h.spares
    · split
      · exact h.spares
      · simp only
        split
        · split
          · next hfollower => cases hrole.symm.trans hfollower
          · next hcandidate => cases hrole.symm.trans hcandidate
          · exact hsame s.timer _
        · exact hsame s.timer _
  | turn branch => cases hbranch
  | retiredTurn place branch => exact runRetired_leader h clock branch place
  | shutDown =>
    refine Or.inl ?_
    show Spares s s.shutDown
    unfold Server.shutDown
    split
    · exact h.spares
    · refine ⟨⟨⟨h.applied_le, h.committed_le⟩, h.peers, h.durable⟩, rfl, Nat.le_refl _, ?_⟩
      intro leader' hrole'
      exact ⟨leader'.awake, true, by rw [hrole']; rfl⟩

omit [Storage σ] [StateMachine μ] in
theorem leads_of_books {last : Nat} {peers : List ServerId} {awaited : List Call}
    (hrole : s.role = .leader leader) (hbooks : leader.Books last peers awaited) :
    s.Leads leader.term :=
  ⟨leader, hrole, rfl, hbooks.not_ended⟩

/-- An event that gives the present leader's loop a turn is a turn of it. -/
theorem step_of_branchOf? (hrole : s.role = .leader leader) (clock : Clock) {event : Event}
    {branch : Branch} (hbranch : event.branchOf? leader.term = some branch) :
    s.step clock event =
      ⟨.none, (s.runLeader clock branch leader).1, (s.runLeader clock branch leader).2⟩ := by
  cases event with
  | turn _ =>
    obtain rfl := Option.some.inj hbranch
    simp only [Server.step, Server.runRole, hrole]
  | appendResult issued report =>
    by_cases hterm : issued = leader.term
    · obtain rfl := Option.some.inj ((if_pos hterm).symm.trans hbranch)
      have hleads : (Role.leader leader).leads issued = true := by
        rw [hterm]
        exact beq_self_eq_true leader.term
      simp only [Server.step, Server.handOutcome, hrole, hleads, if_true, Server.runRole]
    · rw [Event.branchOf?, if_neg hterm] at hbranch
      cases hbranch
  | _ => cases hbranch

/-! ## Runs -/

/-- The runs of a server while it leads a term, each with the calls that the leader's loop has sent
    and whose outcomes it has not handled. Any outcome may come of such a call, at any time, and
    anything else may happen, as long as the server goes on leading. -/
inductive Reigns (term : Nat) : Server σ μ → List Call → Prop where
  | begins {s : Server σ μ} {leader : Leader} (h : s.Fit) (hrole : s.role = .leader leader)
      (hterm : leader.term = term) (hphase : leader.phase = .starting) : Reigns term s []
  /-- The loop has a turn. -/
  | turn {s : Server σ μ} {awaited rest : List Call} (clock : Clock) (event : Event)
      {branch : Branch} (h : Reigns term s awaited) (hbranch : event.branchOf? term = some branch)
      (hoffered : Offered awaited branch rest) (hleads : (s.step clock event).server.Leads term) :
      Reigns term (s.step clock event).server (rest ++ (s.step clock event).calls)
  /-- Something else happens. -/
  | other {s : Server σ μ} {awaited : List Call} (clock : Clock) (event : Event)
      (h : Reigns term s awaited) (hbranch : event.branchOf? term = none)
      (hleads : (s.step clock event).server.Leads term) :
      Reigns term (s.step clock event).server awaited

/-- The server leads the term, and its books are right. -/
structure Rules (s : Server σ μ) (term : Nat) (awaited : List Call) : Prop where
  fit : s.Fit
  leader : ∃ leader, s.role = .leader leader ∧ leader.term = term ∧
    leader.Books s.log.length s.peers awaited

/-- A turn that goes on leaves the books right. -/
theorem rules_runLeader (h : s.Fit) {awaited rest : List Call}
    (hbooks : leader.Books s.log.length s.peers awaited) (clock : Clock) {branch : Branch}
    (hoffered : Offered awaited branch rest)
    (hgoes : (s.leaderTurn clock branch leader).verdict = .goesOn) :
    (s.runLeader clock branch leader).2.Rules leader.term
      (rest ++ (s.runLeader clock branch leader).1) := by
  have hproceeds := proceeds_leaderTurn h.toReaches h.peers hbooks clock hoffered
  have htakes := takes_leaderTurn clock branch leader s
  unfold Server.runLeader
  generalize s.leaderTurn clock branch leader = turn at hgoes hproceeds htakes ⊢
  obtain ⟨calls, leader', server, verdict⟩ := turn
  obtain rfl : verdict = .goesOn := hgoes
  obtain ⟨committed, applied, machine, hserver⟩ := htakes.server
  obtain rfl := hserver
  exact ⟨⟨⟨hproceeds.reaches.applied_le, hproceeds.reaches.committed_le⟩, h.peers, h.durable⟩,
    leader', rfl, htakes.term, hproceeds.books rfl⟩

omit [Storage σ] [StateMachine μ] in
theorem not_leads_recover (clock : Clock) (hrole : s.role = .leader leader)
    (hended : leader.phase = .ended) (term : Nat) : ¬ (s.recover clock).Leads term := by
  rintro ⟨other, hother, -, hlive⟩
  unfold Server.recover at hother
  split at hother
  · obtain rfl := Role.leader.inj (hrole.symm.trans hother)
    exact hlive hended
  · rw [becomeFollower_role] at hother
    cases hother

/-- A server whose loop has ended does not lead any more. -/
theorem goesOn_of_leads {clock : Clock} {branch : Branch} {term : Nat}
    (hleads : (s.runLeader clock branch leader).2.Leads term) :
    (s.leaderTurn clock branch leader).verdict = .goesOn := by
  unfold Server.runLeader at hleads
  generalize s.leaderTurn clock branch leader = turn at hleads ⊢
  obtain ⟨calls, leader', server, verdict⟩ := turn
  cases verdict with
  | goesOn => rfl
  | halts =>
    obtain ⟨other, hother, -, hlive⟩ := hleads
    obtain rfl := Role.leader.inj hother
    exact absurd rfl hlive
  | fails e => exact absurd hleads (not_leads_recover clock rfl rfl term)
  | stepsDown newer =>
    refine absurd hleads ?_
    simp only
    generalize hended : ({ server with role := .leader { leader' with phase := .ended } } :
      Server σ μ) = ended
    have hrole : ended.role = .leader { leader' with phase := .ended } := by rw [← hended]
    rcases stepDown_cases clock newer ended with ⟨-, heq⟩ | ⟨-, ⟨disk, heq⟩ | ⟨e, disk, heq⟩⟩ <;>
      rw [heq]
    · rintro ⟨other, hother, -, hlive⟩
      obtain rfl := Role.leader.inj (hrole.symm.trans hother)
      exact hlive rfl
    · rintro ⟨other, hother, -⟩
      exact absurd ((becomeFollower_role clock _).symm.trans hother) nofun
    · have hstopped : ended.role.stop =
          .leader { leader' with phase := .ended, stopped := true } := by
        rw [hrole]
        rfl
      exact not_leads_recover clock hstopped rfl term

theorem Rules.turn {term : Nat} {awaited rest : List Call} (h : s.Rules term awaited)
    (clock : Clock) {event : Event} {branch : Branch} (hbranch : event.branchOf? term = some branch)
    (hoffered : Offered awaited branch rest) (hleads : (s.step clock event).server.Leads term) :
    (s.step clock event).server.Rules term (rest ++ (s.step clock event).calls) := by
  obtain ⟨leader, hrole, rfl, hbooks⟩ := h.leader
  rw [step_of_branchOf? hrole clock hbranch] at hleads ⊢
  exact rules_runLeader h.fit hbooks clock hoffered (goesOn_of_leads hleads)

theorem Rules.other {term : Nat} {awaited : List Call} (h : s.Rules term awaited) (clock : Clock)
    {event : Event} (hbranch : event.branchOf? term = none)
    (hleads : (s.step clock event).server.Leads term) :
    (s.step clock event).server.Rules term awaited := by
  obtain ⟨leader, hrole, rfl, hbooks⟩ := h.leader
  rcases spares_step h.fit hrole clock hbranch with hspares | hfollower
  · obtain ⟨awake, stopped, hrole'⟩ := hspares.role leader hrole
    refine ⟨hspares.fit, _, hrole', rfl, ?_⟩
    rw [hspares.peers]
    exact hbooks.mono hspares.length_le
  · obtain ⟨other, hother, -⟩ := hleads
    exact absurd (hfollower.symm.trans hother) nofun

theorem Reigns.rules {term : Nat} {awaited : List Call} (h : Reigns term s awaited) :
    s.Rules term awaited := by
  induction h with
  | @begins s leader h hrole hterm hphase =>
    exact ⟨h, leader, hrole, hterm, (Leader.books_of_starting hphase).2 rfl⟩
  | turn clock event h hbranch hoffered hleads ih => exact ih.turn clock hbranch hoffered hleads
  | other clock event h hbranch hleads ih => exact ih.other clock hbranch hleads

/-- While a server leads, whatever its peers answer: no two calls to the same peer are out; what it
    knows of a peer stays within its log, and the peer is marked as in flight exactly while a call
    to it is out; each request is a slice of the log; and the loop goes on unless it is told to end
    or a reply shows a newer term, where only the disk can fail. -/
theorem leader_keeps_books {term : Nat} {awaited : List Call} (h : Reigns term s awaited) :
    (awaited.map Call.target).Nodup ∧
      ∃ leader, s.role = .leader leader ∧ leader.term = term ∧
        (∀ known nextBeat, leader.phase = .running known nextBeat →
          known.map Prod.fst = s.peers ∧ ∀ peer ∈ known,
            (1 ≤ peer.2.next ∧ peer.2.next ≤ s.log.length + 1) ∧
              peer.2.matched ≤ s.log.length ∧
              (peer.2.inFlight ↔ peer.1 ∈ awaited.map Call.target)) ∧
        ∀ clock branch rest, Offered awaited branch rest →
          (∀ call ∈ (s.leaderTurn clock branch leader).calls, s.SendsSlice term call) ∧
            s.EndsOnly leader branch (s.leaderTurn clock branch leader).verdict ∧
            ((s.leaderTurn clock branch leader).verdict = .goesOn →
              (s.runLeader clock branch leader).2.Leads term) := by
  obtain ⟨hfit, leader, hrole, rfl, hbooks⟩ := h.rules
  refine ⟨?_, leader, hrole, rfl, fun known nextBeat hphase => ?_,
    fun clock branch rest hoffered => ?_⟩
  · cases hphase : leader.phase with
    | starting =>
      rw [(Leader.books_of_starting hphase).1 hbooks]
      exact List.nodup_nil
    | running known nextBeat => exact ((Leader.books_of_running hphase).1 hbooks).targets
    | ended => exact absurd hphase hbooks.not_ended
  · have hledger := (Leader.books_of_running hphase).1 hbooks
    exact ⟨hledger.peers, fun peer hpeer =>
      ⟨hledger.next peer hpeer, hledger.matched peer hpeer, hledger.inFlight peer hpeer⟩⟩
  · have hproceeds := proceeds_leaderTurn hfit.toReaches hfit.peers hbooks clock hoffered
    refine ⟨hproceeds.calls, hproceeds.verdict, fun hgoes => ?_⟩
    obtain ⟨-, leader', hrole', hterm', hbooks'⟩ :=
      rules_runLeader hfit hbooks clock hoffered hgoes
    exact hterm' ▸ leads_of_books hrole' hbooks'

/-! ## From an election -/

omit [Storage σ] [StateMachine μ] in
theorem Moves.peers {s s' : Server σ μ} (h : s.Moves s') : s'.peers = s.peers := by
  cases h with
  | advances h =>
    obtain ⟨committed, applied, machine, rfl⟩ := h
    rfl
  | follows clock durable role =>
    obtain ⟨_, _, _, heq, -⟩ := becomeFollower_eq clock ({ s with durable, role } : Server σ μ)
    rw [heq]
  | looks =>
    unfold Server.takeTimeout Server.becomeCandidate
    simp only
    repeat' split
    all_goals rfl
  | shutsDown =>
    unfold Server.shutDown
    split <;> rfl
  | _ => rfl

theorem Reachable.peers_nodup (h : s.Reachable) : s.peers.Nodup := by
  induction h with
  | start hstart =>
    obtain ⟨-, peers, durable, hconnect, -, rfl⟩ := start_eq hstart
    exact (Configuration.connect_eq hconnect).1
  | @step s clock event h ih =>
    have hcomes := h.inOrder.comes clock event
    generalize (s.step clock event).calls = calls at hcomes
    generalize (s.step clock event).server = s' at hcomes ⊢
    cases hcomes with
    | becomes _ _ hbecomes =>
      induction hbecomes with
      | refl => exact ih
      | tail _ hmoves ih => exact hmoves.peers ▸ ih
    | opens => exact ih
    | wins => exact ih

theorem Reachable.applied_le (h : s.Reachable) : s.volatile.applied ≤ s.volatile.committed := by
  induction h with
  | start hstart =>
    obtain ⟨-, peers, durable, -, -, rfl⟩ := start_eq hstart
    exact Nat.le_refl 0
  | step clock event _ ih => exact (feeds_step ih clock event).applied_le_committed

theorem Reachable.endsAtDoubt (h : s.Reachable) : s.durable.EndsAtDoubt := by
  induction h with
  | start hstart =>
    obtain ⟨-, peers, durable, -, hload, rfl⟩ := start_eq hstart
    intro start hdoubt
    rw [DurableState.unsyncedFrom_of_load hload] at hdoubt
    cases hdoubt
  | @step s clock event _ ih =>
    obtain ⟨ops, hops, heq⟩ := evolves_step clock event s
    rw [heq]
    exact ih.after hops

/-- Whoever is elected begins a reign, if its log has all that it knows to be committed. -/
theorem Reachable.reigns (h : s.Reachable) (hrole : s.role = .leader leader)
    (hphase : leader.phase = .starting) (hcommitted : s.volatile.committed ≤ s.log.length) :
    Reigns leader.term s [] :=
  .begins ⟨⟨h.applied_le, hcommitted⟩, h.peers_nodup, h.endsAtDoubt⟩ hrole rfl hphase

/-- Server 1 of three, just elected. Its disk will refuse the next write. -/
def crowned : Server (Fated Contents) KeyValue.Store :=
  (((newcomer [false, true]).after campaign).step ⟨2, 1⟩ (.turn .stop)).server

/-- The heartbeat that it sends to a peer. -/
def heartbeat (peer : ServerId) : Call := ⟨peer, .append ⟨1, ⟨1⟩, .origin, [], 0⟩⟩

/-- It sends heartbeats, takes a command at the second attempt, and hears from both peers that their
    logs are as long as can be, from one with success and from the other without. -/
def misled : Server (Fated Contents) KeyValue.Store :=
  crowned.after
    [(⟨2, 1⟩, .turn .stop), (⟨2, 1⟩, .turn .beat), (⟨3, 1⟩, .submit [7]), (⟨3, 1⟩, .submit [7]),
      (⟨3, 1⟩, .appendResult 1 ⟨⟨2⟩, 0, 0, .ok ⟨1, true, 18446744073709551615⟩⟩),
      (⟨3, 1⟩, .appendResult 1 ⟨⟨3⟩, 0, 0, .ok ⟨1, false, 18446744073709551615⟩⟩)]

/-- The request with the command. -/
def commanding : AppendRequest := ⟨1, ⟨1⟩, .origin, [⟨1, 1, [7]⟩], 0⟩

theorem reigns_misled :
    Reigns 1 misled [⟨⟨2⟩, .append commanding⟩, ⟨⟨3⟩, .append commanding⟩] := by
  have hreachable : crowned.Reachable := .step ⟨2, 1⟩ (.turn .stop)
    ((reachable_newcomer [false, true]).after campaign)
  have hbegins : Reigns 1 crowned [] := hreachable.reigns rfl rfl (by decide)
  have hrunning := hbegins.turn ⟨2, 1⟩ (.turn .stop) rfl .stop ⟨_, rfl, rfl, nofun⟩
  have hbeat := hrunning.turn ⟨2, 1⟩ (.turn .beat) rfl .beat ⟨_, rfl, rfl, nofun⟩
  have hrefused := hbeat.other ⟨3, 1⟩ (.submit [7]) rfl ⟨_, rfl, rfl, nofun⟩
  have htaken := hrefused.other ⟨3, 1⟩ (.submit [7]) rfl ⟨_, rfl, rfl, nofun⟩
  have hheard := htaken.turn ⟨3, 1⟩
    (.appendResult 1 ⟨⟨2⟩, 0, 0, .ok ⟨1, true, 18446744073709551615⟩⟩) rfl
    (.outcome (heartbeat ⟨2⟩) (by decide) rfl _) ⟨_, rfl, rfl, nofun⟩
  exact hheard.turn ⟨3, 1⟩
    (.appendResult 1 ⟨⟨3⟩, 0, 0, .ok ⟨1, false, 18446744073709551615⟩⟩) rfl
    (.outcome (heartbeat ⟨3⟩) (by decide) rfl _) ⟨_, rfl, rfl, nofun⟩

/-- What it knows then: neither of them has anything, and the command is on its way to both. -/
def undeceived : Leader :=
  ⟨1, .running [(⟨2⟩, ⟨1, 0, true⟩), (⟨3⟩, ⟨1, 0, true⟩)] 52, true, false⟩

/-- A reply with a newer term is a reason to end, and the disk takes the term. -/
theorem leader_keeps_books_misled :
    misled.role = .leader undeceived ∧
      (misled.leaderTurn ⟨3, 1⟩ (.outcome (commanding.report ⟨2⟩ (.ok ⟨5, false, 0⟩)))
        undeceived).verdict = .stepsDown 5 ∧
      misled.EndsOnly undeceived (.outcome (commanding.report ⟨2⟩ (.ok ⟨5, false, 0⟩)))
        (.stepsDown 5) := by
  obtain ⟨-, leader, hrole, -, -, hturns⟩ := leader_keeps_books reigns_misled
  have hknows : misled.role = .leader undeceived := rfl
  obtain rfl := Role.leader.inj (hrole.symm.trans hknows)
  exact ⟨hknows, rfl, (hturns ⟨3, 1⟩ _ _
    (.outcome ⟨⟨2⟩, .append commanding⟩ (by decide) rfl (.ok ⟨5, false, 0⟩))).2.1⟩

end Server

end Quorum
