import Quorum.Proofs.Cluster.Rounds
import Quorum.Proofs.Server.Shutdown
import Quorum.Proofs.Server.Timers

set_option autoImplicit false

/-! # A shutdown is final

Whatever a server was doing when it was shut down and whatever happens to it then, it does nothing of
its own accord any more: it rises to no other role, opens no round, takes no command, and learns of a
newer term from others only.

A shutdown cancels the timer, but not for good, as a follower that heeds a request starts it again.
Nobody looks at the timeout that it leaves, so it makes no difference to anybody how the timer of such
a server stands. -/

namespace Quorum

/-- Whether the timer may be started at an event, or runs out at it. -/
def Event.concernsTimer : Event → Bool
  | .requestVote _ | .appendEntries _ | .timerFires => true
  | _ => false

namespace Server

variable {σ μ : Type} {s s' : Server σ μ}

/-! ## Falling back -/

theorem isShutDown_shutDown (s : Server σ μ) : s.shutDown.isShutDown := by
  unfold Server.shutDown
  split
  · next hdown => exact hdown
  · rfl

theorem shutDown_mode (s : Server σ μ) : s.shutDown.mode = s.mode := by
  unfold Server.shutDown Server.mode
  split
  · rfl
  · cases s.role <;> rfl

theorem shutDown_standing (s : Server σ μ) : s.shutDown.role.standing = s.role.standing := by
  unfold Server.shutDown
  split
  · rfl
  · exact Role.standing_stop s.role

theorem shutDown_of_isShutDown (hdown : s.isShutDown) : s.shutDown = s := by
  unfold Server.shutDown
  rw [if_pos hdown]

theorem takeTimeout_of_isShutDown (hdown : s.isShutDown) : s.takeTimeout = s := by
  unfold Server.takeTimeout
  rw [if_pos hdown]

/-- The server stays shut down, and stays in its mode or falls back to being a follower. -/
structure Subsides (s s' : Server σ μ) : Prop where
  down : s'.isShutDown
  mode : s'.mode = s.mode ∨ s'.mode = .follower

theorem Subsides.trans {s'' : Server σ μ} (h : s.Subsides s') (h' : s'.Subsides s'') :
    s.Subsides s'' := by
  refine ⟨h'.down, ?_⟩
  rcases h'.mode with hmode | hfollower
  · rw [hmode]
    exact h.mode
  · exact Or.inr hfollower

theorem Moves.subsides (h : s.Moves s') (hdown : s.isShutDown) : s.Subsides s' := by
  cases h with
  | advances hadvances =>
    obtain ⟨committed, applied, machine, rfl⟩ := hadvances
    exact ⟨hdown, Or.inl rfl⟩
  | writes durable hretains hlog => exact ⟨hdown, Or.inl rfl⟩
  | votes candidate disk hvoted => exact ⟨hdown, Or.inl rfl⟩
  | follows clock durable role hid hguarded hmode =>
    refine ⟨?_, Or.inr ?_⟩
    · rw [becomeFollower_isShutDown]
      exact hdown
    · rw [Server.mode, becomeFollower_role]
      rfl
  | hears clock leader hrole => exact ⟨hdown, Or.inl rfl⟩
  | counts candidate term tally phase hrole hphase hnext =>
    exact ⟨hdown, Or.inl (congrArg Role.mode hrole).symm⟩
  | ends candidate hrole hends => exact ⟨hdown, Or.inl (congrArg Role.mode hrole).symm⟩
  | leads leader leader' hrole hterm hstopped hphase =>
    exact ⟨hdown, Or.inl (congrArg Role.mode hrole).symm⟩
  | retires retired hretired => exact ⟨hdown, Or.inl rfl⟩
  | fires => exact ⟨hdown, Or.inl rfl⟩
  | looks =>
    rw [takeTimeout_of_isShutDown hdown]
    exact ⟨hdown, Or.inl rfl⟩
  | shutsDown =>
    rw [shutDown_of_isShutDown hdown]
    exact ⟨hdown, Or.inl rfl⟩

theorem Becomes.subsides (h : s.Becomes s') (hdown : s.isShutDown) : s.Subsides s' := by
  induction h with
  | refl => exact ⟨hdown, Or.inl rfl⟩
  | tail _ hmoves ih => exact ih.trans (hmoves.subsides ih.down)

/-! ## Steps -/

variable [Storage σ] [StateMachine μ]

/-- A server that is shut down opens no round and wins none, so there is little that an event can
    come to. -/
theorem InOrder.becomes_of_isShutDown (h : s.InOrder) (hdown : s.isShutDown) (clock : Clock)
    (event : Event) :
    s.Becomes (s.step clock event).server ∧ SendsEntriesOnly (s.step clock event).calls := by
  have hrun : ∀ branch, s.Becomes (s.runRole clock branch).2 ∧
      SendsEntriesOnly (s.runRole clock branch).1 := by
    intro branch
    unfold Server.runRole
    split
    · exact ⟨.refl, sendsEntriesOnly_nil⟩
    · next candidate hrole =>
      rw [candidateTurn_of_isShutDown h hdown clock hrole]
      have hstopped := (h.candidate hrole).stopped.trans hdown
      exact ⟨(Moves.ends candidate hrole (Or.inl hstopped)).becomes, sendsEntriesOnly_nil⟩
    · next leader hrole =>
      refine ⟨becomes_runLeader h clock branch hrole, ?_⟩
      rw [runLeader_calls]
      exact sendsEntriesOnly_of_takes (takes_leaderTurn clock branch leader s)
  have hretired : ∀ place branch, s.Becomes (s.runRetired clock branch place).2 ∧
      SendsEntriesOnly (s.runRetired clock branch place).1 := fun place branch =>
    ⟨becomes_runRetired clock branch place s, sendsEntriesOnly_runRetired clock branch place s⟩
  cases event with
  | requestVote request => exact ⟨becomes_requestVote clock request s, sendsEntriesOnly_nil⟩
  | appendEntries request => exact ⟨becomes_appendEntries h clock request, sendsEntriesOnly_nil⟩
  | submit command => exact ⟨becomes_submit command s, sendsEntriesOnly_nil⟩
  | voteResult term result => exact ⟨becomes_countVote term result s, sendsEntriesOnly_nil⟩
  | appendResult term report =>
    show s.Becomes (s.handOutcome clock term report).2 ∧
      SendsEntriesOnly (s.handOutcome clock term report).1
    unfold Server.handOutcome
    split
    · exact hrun _
    · split
      · exact hretired _ _
      · exact ⟨.refl, sendsEntriesOnly_nil⟩
  | timerFires => exact ⟨Moves.fires.becomes, sendsEntriesOnly_nil⟩
  | takeTimeout => exact ⟨Moves.looks.becomes, sendsEntriesOnly_nil⟩
  | turn branch => exact hrun branch
  | retiredTurn place branch => exact hretired place branch
  | shutDown => exact ⟨Moves.shutsDown.becomes, sendsEntriesOnly_nil⟩

omit [Storage σ] [StateMachine μ] in
theorem countVote_timer (term : Nat) (result : Except CallError VoteReply) (s : Server σ μ) :
    (s.countVote term result).timer = s.timer := by
  unfold Server.countVote
  repeat' split
  all_goals rfl

/-- Nothing becomes of the timer but by requests, and by itself. -/
theorem fades_step (h : s.InOrder) (hdown : s.isShutDown) (clock : Clock) {event : Event}
    (hconcerns : event.concernsTimer = false) :
    s.Fades (s.step clock event).server event.offeredTerm? := by
  cases event with
  | requestVote request => cases hconcerns
  | appendEntries request => cases hconcerns
  | timerFires => cases hconcerns
  | submit command =>
    show s.Fades (s.submit command).state _
    rw [submit_of_isShutDown h hdown]
    exact .of_eq rfl rfl
  | voteResult term result =>
    exact .of_eq (countVote_timer term result s) (countVote_durable term result s)
  | appendResult term report => exact fades_handOutcome h hdown clock term report
  | takeTimeout =>
    show s.Fades s.takeTimeout _
    rw [takeTimeout_of_isShutDown hdown]
    exact .of_eq rfl rfl
  | turn branch => exact fades_runRole h hdown clock branch
  | retiredTurn place branch => exact fades_runRetired clock branch place hdown
  | shutDown =>
    show s.Fades s.shutDown _
    rw [shutDown_of_isShutDown hdown]
    exact .of_eq rfl rfl

/-- What an event comes to after a shutdown. -/
structure WindsDown (s : Server σ μ) (event : Event) (result : StepResult σ μ) : Prop
    extends s.Subsides result.server where
  /-- Nobody is asked for a vote. -/
  calls : SendsEntriesOnly result.calls
  /-- No round is opened. -/
  rounds : ∀ term, result.server.role.standing = .running term →
    s.role.standing = .running term
  term : s.Adopts result.server event.offeredTerm?
  /-- A command is refused, and nothing changes. -/
  refuses : ∀ command, event = .submit command →
    result = ⟨.submit (.ok (.notLeader s.volatile.leader)), [], s⟩
  /-- The timer runs if the event was heeded, or if it has run before and not run out. -/
  timer : result.server.timer.due.isSome ↔
    Heeds event result ∨ event ≠ .timerFires ∧ s.timer.due.isSome

theorem adopts_step (h : s.InOrder) (hdown : s.isShutDown) (clock : Clock) (event : Event) :
    s.Adopts (s.step clock event).server event.offeredTerm? := by
  cases hconcerns : event.concernsTimer with
  | false => exact (fades_step h hdown clock hconcerns).term
  | true =>
    cases event with
    | requestVote request => exact adopts_requestVote clock request hdown
    | appendEntries request => exact adopts_appendEntries clock request hdown
    | timerFires => exact Or.inl rfl
    | _ => cases hconcerns

theorem minds_step (h : s.InOrder) (hdown : s.isShutDown) (clock : Clock) {event : Event}
    (hfires : event ≠ .timerFires) : Minds clock s event (s.step clock event) := by
  cases hconcerns : event.concernsTimer with
  | false =>
    refine ⟨fun hheeds => ?_, fun _ => (fades_step h hdown clock hconcerns).timer⟩
    obtain ⟨-, hheeds⟩ := hheeds
    cases event <;> first | exact hheeds.elim | cases hconcerns
  | true =>
    cases event with
    | requestVote request => exact minds_requestVote clock request hdown
    | appendEntries request => exact minds_appendEntries clock request hdown
    | timerFires => exact absurd rfl hfires
    | _ => cases hconcerns

/-- Whatever happens after a shutdown, the server only winds down. -/
theorem InOrder.windsDown (h : s.InOrder) (hdown : s.isShutDown) (clock : Clock) (event : Event) :
    s.WindsDown event (s.step clock event) := by
  obtain ⟨hbecomes, hcalls⟩ := h.becomes_of_isShutDown hdown clock event
  refine ⟨hbecomes.subsides hdown, hcalls, fun term hrunning => ?_,
    adopts_step h hdown clock event, ?_, ?_⟩
  · rcases hbecomes.stands.standing with hidle | ⟨hsame, -⟩
    · rw [hidle] at hrunning
      cases hrunning
    · exact hsame.symm.trans hrunning
  · rintro command rfl
    show (⟨.submit (s.submit command).result, [], (s.submit command).state⟩ : StepResult σ μ) = _
    rw [submit_of_isShutDown h hdown]
    rfl
  · by_cases hfires : event = .timerFires
    · subst hfires
      have hspent : (s.step clock .timerFires).server.timer.due = none := by
        show s.timer.fire.2.due = none
        unfold ElectionTimer.fire
        split
        · rfl
        · next hidle => exact hidle
      rw [hspent]
      refine ⟨nofun, ?_⟩
      rintro (⟨-, ⟨⟩⟩ | ⟨hne, -⟩)
      exact absurd rfl hne
    · have hminds := minds_step h hdown clock hfires
      by_cases hheeds : Heeds event (s.step clock event)
      · rw [hminds.heeds hheeds]
        exact iff_of_true rfl (Or.inl hheeds)
      · rw [hminds.ignores hheeds]
        exact ⟨fun hruns => Or.inr ⟨hfires, hruns⟩,
          fun hruns => hruns.elim (absurd · hheeds) And.right⟩

/-! ## Runs -/

/-- What becomes of a server that is shut down and to which some events happen then. -/
structure Over (s : Server σ μ) (events : List (Clock × Event)) : Prop
    extends s.Subsides (s.shutDown.after events) where
  /-- The next event, whatever it is, comes to nothing new either. -/
  next : ∀ clock event, (s.shutDown.after events).WindsDown event
    ((s.shutDown.after events).step clock event)
  /-- A round that is open was open at the shutdown. -/
  rounds : ∀ term, (s.shutDown.after events).role.standing = .running term →
    s.role.standing = .running term
  /-- The term is that at the shutdown, or a larger one that a peer has shown since. -/
  term : (s.shutDown.after events).term = s.term ∨
    s.term < (s.shutDown.after events).term ∧
      ∃ moment ∈ events, moment.2.offeredTerm? = some (s.shutDown.after events).term
  /-- The timer does not run, unless something was heeded as a follower. -/
  timer : s.isShutDown = false → (s.shutDown.after events).timer.due.isSome →
    ∃ before clock event rest, events = before ++ (clock, event) :: rest ∧
      Heeds event ((s.shutDown.after before).step clock event)
  /-- It makes no difference to what is answered, called and done how the timer stands. -/
  timeless : ∀ twin, s.shutDown.Resembles twin →
    (s.shutDown.after events).Resembles (twin.after events) ∧
      ∀ clock event,
        ((twin.after events).step clock event).answer =
          ((s.shutDown.after events).step clock event).answer ∧
        ((twin.after events).step clock event).calls =
          ((s.shutDown.after events).step clock event).calls

theorem after_cons (s : Server σ μ) (clock : Clock) (event : Event)
    (events : List (Clock × Event)) :
    s.after ((clock, event) :: events) = (s.step clock event).server.after events := rfl

theorem InOrder.after (h : s.InOrder) (events : List (Clock × Event)) :
    (s.after events).InOrder := by
  induction events generalizing s with
  | nil => exact h
  | cons first events ih =>
    obtain ⟨clock, event⟩ := first
    exact ih (h.step clock event)

theorem subsides_after (h : s.InOrder) (hdown : s.isShutDown) (events : List (Clock × Event)) :
    s.Subsides (s.after events) := by
  induction events generalizing s with
  | nil => exact ⟨hdown, Or.inl rfl⟩
  | cons first events ih =>
    obtain ⟨clock, event⟩ := first
    have hfirst := (h.windsDown hdown clock event).toSubsides
    exact hfirst.trans (ih (h.step clock event) hfirst.down)

theorem rounds_after (h : s.InOrder) (hdown : s.isShutDown) {events : List (Clock × Event)}
    {term : Nat} (hrunning : (s.after events).role.standing = .running term) :
    s.role.standing = .running term := by
  induction events generalizing s with
  | nil => exact hrunning
  | cons first events ih =>
    obtain ⟨clock, event⟩ := first
    have hfirst := h.windsDown hdown clock event
    exact hfirst.rounds term (ih (h.step clock event) hfirst.down hrunning)

/-- However many terms are adopted, the last of them was shown by a peer. -/
theorem adopts_after (h : s.InOrder) (hdown : s.isShutDown) (events : List (Clock × Event)) :
    (s.after events).term = s.term ∨
      s.term < (s.after events).term ∧
        ∃ moment ∈ events, moment.2.offeredTerm? = some (s.after events).term := by
  induction events generalizing s with
  | nil => exact Or.inl rfl
  | cons first events ih =>
    obtain ⟨clock, event⟩ := first
    have hfirst := h.windsDown hdown clock event
    rw [after_cons]
    rcases ih (h.step clock event) hfirst.down with hsame | ⟨hlt, moment, hmem, hoffered⟩
    · rw [hsame]
      refine hfirst.term.imp_right fun ⟨hlt, hoffered⟩ => ⟨hlt, _, List.mem_cons_self .., hoffered⟩
    · refine Or.inr ⟨?_, moment, List.mem_cons_of_mem _ hmem, hoffered⟩
      have hle : s.term ≤ (s.step clock event).server.term :=
        hfirst.term.elim (fun hsame => Nat.le_of_eq hsame.symm) fun ⟨hlt, _⟩ => Nat.le_of_lt hlt
      exact Nat.lt_of_le_of_lt hle hlt

/-- A timer that runs has run from the first, or something was heeded. -/
theorem heeded_of_isSome (h : s.InOrder) (hdown : s.isShutDown) {events : List (Clock × Event)}
    (hruns : (s.after events).timer.due.isSome) :
    s.timer.due.isSome ∨
      ∃ before clock event rest, events = before ++ (clock, event) :: rest ∧
        Heeds event ((s.after before).step clock event) := by
  induction events generalizing s with
  | nil => exact Or.inl hruns
  | cons first events ih =>
    obtain ⟨clock, event⟩ := first
    have hfirst := h.windsDown hdown clock event
    rcases ih (h.step clock event) hfirst.down hruns with
      hruns | ⟨before, clock', event', rest, rfl, hheeds⟩
    · rcases hfirst.timer.1 hruns with hheeds | ⟨-, hruns⟩
      · exact Or.inr ⟨[], clock, event, events, rfl, hheeds⟩
      · exact Or.inl hruns
    · exact Or.inr ⟨(clock, event) :: before, clock', event', rest, rfl, hheeds⟩

theorem Resembles.after {twin : Server σ μ} (h : s.Resembles twin) (horder : s.InOrder)
    (hdown : s.isShutDown) (events : List (Clock × Event)) :
    (s.after events).Resembles (twin.after events) := by
  induction events generalizing s twin with
  | nil => exact h
  | cons first events ih =>
    obtain ⟨clock, event⟩ := first
    exact ih (h.step clock event fun _ => hdown).2.2 (horder.step clock event)
      (horder.windsDown hdown clock event).down

/-- A shutdown is final, whatever the server was doing and whatever happens to it then. -/
theorem shutdown_is_final (h : s.Reachable) (events : List (Clock × Event)) : s.Over events := by
  have horder : s.shutDown.InOrder := h.inOrder.shutDown
  have hdown := isShutDown_shutDown s
  have hterm : s.shutDown.term = s.term := congrArg DurableState.term (shutDown_durable s)
  have hsubsides := subsides_after horder hdown events
  have hend := horder.after events
  refine ⟨⟨hsubsides.down, shutDown_mode s ▸ hsubsides.mode⟩, hend.windsDown hsubsides.down,
    fun term hrunning => ?_, hterm ▸ adopts_after horder hdown events, fun hup hruns => ?_,
    fun twin htwin => ?_⟩
  · exact shutDown_standing s ▸ rounds_after horder hdown hrunning
  · refine (heeded_of_isSome horder hdown hruns).resolve_left fun hruns => ?_
    unfold Server.shutDown at hruns
    rw [if_neg (by simp [hup])] at hruns
    cases hruns
  · have hsame := htwin.after horder hdown events
    refine ⟨hsame, fun clock event => ?_⟩
    obtain ⟨hanswer, hcalls, -⟩ := hsame.step clock event fun _ => hsubsides.down
    exact ⟨hanswer, hcalls⟩

/-- The loop has its turn, a client submits a command, another candidate asks for the vote of term 2
    and gets it, and the timer runs out. -/
def aftermath : List (Clock × Event) :=
  [(⟨2, 1⟩, .turn .stop), (⟨3, 1⟩, .submit []), (⟨3, 1⟩, .requestVote ⟨2, ⟨3⟩, .origin⟩),
    (⟨4, 1⟩, .timerFires), (⟨4, 1⟩, .takeTimeout)]

/-- A candidate that is shut down when it has the votes does not become the leader, and the timeout
    that its timer leaves later does not make it a candidate again. -/
theorem shutdown_is_final_campaign :
    let candidate := (newcomer []).after campaign
    candidate.mode = .candidate ∧
      (candidate.shutDown.after (aftermath.take 1)).role =
        .candidate ⟨.ended, false, true⟩ ∧
      (candidate.shutDown.after aftermath).mode = .follower ∧
      (candidate.shutDown.after aftermath).term = 2 ∧
      (candidate.shutDown.after aftermath).timeouts.length = 1 ∧
      candidate.Over aftermath :=
  ⟨rfl, rfl, rfl, rfl, rfl, shutdown_is_final ((reachable_newcomer []).after campaign) aftermath⟩

/-- A follower that is sent entries after its shutdown starts its timer. -/
theorem not_disarmed_for_good_newcomer :
    ¬ ∀ s : Server (Fated Contents) KeyValue.Store, s.Reachable → s.isShutDown = false →
      ∀ events, (s.shutDown.after events).timer.due = none := by
  intro h
  have hidle := h (newcomer []) (reachable_newcomer []) rfl
    [(⟨1, 1⟩, .appendEntries ⟨1, ⟨2⟩, .origin, [], 0⟩)]
  have hruns : ((newcomer []).shutDown.after
      [(⟨1, 1⟩, .appendEntries ⟨1, ⟨2⟩, .origin, [], 0⟩)]).timer.due = some 2 := rfl
  rw [hruns] at hidle
  cases hidle

end Server

end Quorum
