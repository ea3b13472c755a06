import Quorum.Proofs.State.Volatile
import Quorum.Server.Replication

set_option autoImplicit false

/-! # What a turn of a leader's loop comes to

A turn sends entries in the term of the loop, commits and applies, and updates what the loop knows
of its peers. It touches neither the ballot nor the log nor the role of the server. What its verdict
means is collected in `Leader.Takes`, so that whoever runs a loop, be it that of the present role or
one that was given up, need not look at its branches. -/

namespace Quorum

namespace Server

variable {σ μ : Type}

/-! ## Committing -/

/-- Nothing changes but the two indices and the machine. -/
def Advances (s s' : Server σ μ) : Prop :=
  ∃ committed applied machine,
    s' = { s with volatile := { s.volatile with committed, applied }, machine }

theorem Advances.refl (s : Server σ μ) : s.Advances s :=
  ⟨s.volatile.committed, s.volatile.applied, s.machine, rfl⟩

theorem Advances.trans {s s' s'' : Server σ μ} (h : s.Advances s') (h' : s'.Advances s'') :
    s.Advances s'' := by
  obtain ⟨_, _, _, rfl⟩ := h
  obtain ⟨committed, applied, machine, rfl⟩ := h'
  exact ⟨committed, applied, machine, rfl⟩

variable [StateMachine μ]

/-- Applying does not touch the leader that is known. -/
theorem applyNext_leader (log : Log) (count : Nat) (v : VolatileState) (machine : μ) :
    (applyNext log count v machine).state.1.leader = v.leader := by
  induction count generalizing v machine with
  | zero => rfl
  | succ count ih =>
    unfold applyNext
    split
    · rfl
    · rcases v.raiseApplied_cases (v.applied + 1) with hraised | ⟨e, hraised⟩
      · rw [hraised]
        simp only [Attempt.ok, Attempt.andThen]
        split <;> exact ih { v with applied := v.applied + 1 } _
      · rw [hraised]
        rfl

theorem advances_applyEntries (s : Server σ μ) : s.Advances s.applyEntries.state := by
  have hleader := applyNext_leader s.log (s.volatile.committed - s.volatile.applied) s.volatile
    s.machine
  unfold Server.applyEntries applyCommitted
  generalize applyNext s.log _ s.volatile s.machine = applied at hleader ⊢
  obtain ⟨result, ⟨volatile, machine⟩⟩ := applied
  refine ⟨volatile.committed, volatile.applied, machine, ?_⟩
  obtain ⟨committed, applied, leader⟩ := volatile
  obtain rfl : leader = s.volatile.leader := hleader
  rfl

theorem advances_commitMajority (s : Server σ μ) (term : Nat)
    (peers : List (ServerId × Progress)) :
    s.Advances (s.commitMajority term peers).state := by
  unfold Server.commitMajority
  simp only
  split
  · exact Advances.refl s
  · split
    · exact Advances.refl s
    · rcases s.volatile.raiseCommitted_cases
        (majorityIndex (s.log.last.index :: peers.map (·.2.matched))) with hraised | ⟨e, hraised⟩
      · rw [hraised]
        simp only [Attempt.ok]
        have hanswer := Attempt.andThen_answer (({ s with
          volatile := { s.volatile with
            committed := majorityIndex (s.log.last.index :: peers.map (·.2.matched)) } } :
          Server σ μ).applyEntries) ()
        unfold Attempt.ok at hanswer
        rw [hanswer]
        exact .trans ⟨_, s.volatile.applied, s.machine, rfl⟩ (advances_applyEntries _)
      · rw [hraised]
        exact Advances.refl s

end Server

/-! ## Turns -/

variable {σ μ : Type}

/-- Calls that send entries in a term. -/
def SendsIn (term : Nat) (calls : List Call) : Prop :=
  ∀ call ∈ calls, ∃ request, call.request = .append request ∧ request.term = term

theorem sendsIn_nil (term : Nat) : SendsIn term [] := List.forall_mem_nil _

/-- What a turn of a leader's loop comes to. -/
structure Leader.Takes (leader : Leader) (s : Server σ μ) (turn : Turn σ μ) : Prop where
  calls : SendsIn leader.term turn.calls
  server : s.Advances turn.server
  term : turn.leader.term = leader.term
  stopped : turn.leader.stopped = leader.stopped
  /-- A loop that has ended does not go on, and one that goes on has not ended. -/
  goesOn : turn.verdict = .goesOn → leader.phase ≠ .ended ∧ turn.leader.phase ≠ .ended
  /-- Only a loop that is to end, or has ended, halts. -/
  halts : turn.verdict = .halts → leader.stopped ∨ leader.phase = .ended
  /-- A loop gives way only to a newer term. -/
  stepsDown : ∀ term, turn.verdict = .stepsDown term → leader.term < term

namespace Server

/-- A request that sends entries is in the term that it was made for. -/
theorem term_of_entriesRequest {s : Server σ μ} {term next : Nat} {peer : ServerId}
    {request : AppendRequest} (h : s.entriesRequest term peer next = .ok request) :
    request.term = term := by
  unfold Server.entriesRequest at h
  split at h
  · cases h
  · cases h
    rfl

theorem sendsIn_dispatch (s : Server σ μ) (term : Nat) (wants : Progress → Bool)
    (peers : List (ServerId × Progress)) : SendsIn term (s.dispatch term wants peers).calls := by
  induction peers with
  | nil => exact sendsIn_nil term
  | cons peer rest ih =>
    obtain ⟨peer, progress⟩ := peer
    rw [Server.dispatch]
    split
    · split
      · exact sendsIn_nil term
      · next request hrequest =>
        exact List.forall_mem_cons.2 ⟨⟨request, rfl, term_of_entriesRequest hrequest⟩, ih⟩
    · exact ih

theorem sendsIn_dispatchTo (s : Server σ μ) (term : Nat) (peers : List (ServerId × Progress))
    (peer : ServerId) (progress : Progress) :
    SendsIn term (s.dispatchTo term peers peer progress).calls := by
  unfold Server.dispatchTo
  split
  · exact sendsIn_nil term
  · next request hrequest =>
    exact List.forall_mem_cons.2
      ⟨⟨request, rfl, term_of_entriesRequest hrequest⟩, sendsIn_nil term⟩

/-- A running loop that only learns something. -/
theorem takes_running {leader : Leader} (hphase : leader.phase ≠ .ended) (s : Server σ μ)
    {calls : List Call} (hcalls : SendsIn leader.term calls) (known : List (ServerId × Progress))
    (nextBeat : Nat) {verdict : Verdict} (hhalts : verdict ≠ .halts)
    (hstepsDown : ∀ term, verdict = .stepsDown term → leader.term < term) :
    leader.Takes s ⟨calls, { leader with phase := .running known nextBeat }, s, verdict⟩ :=
  ⟨hcalls, Advances.refl s, rfl, rfl, fun _ => ⟨hphase, nofun⟩, fun h => absurd h hhalts,
    hstepsDown⟩

variable [StateMachine μ]

theorem takes_settle {leader : Leader} (hphase : leader.phase ≠ .ended) (s : Server σ μ)
    {sent : Dispatch} (hcalls : SendsIn leader.term sent.calls) (nextBeat : Nat) :
    leader.Takes s (s.settle leader sent nextBeat) := by
  have hadvances := advances_commitMajority s leader.term sent.peers
  unfold Server.settle
  simp only
  split
  · exact ⟨hcalls, Advances.refl s, rfl, rfl, nofun, nofun, nofun⟩
  · split
    · exact ⟨hcalls, hadvances, rfl, rfl, nofun, nofun, nofun⟩
    · exact ⟨hcalls, hadvances, rfl, rfl, fun _ => ⟨hphase, nofun⟩, nofun, nofun⟩

theorem takes_handleReport {leader : Leader} (hphase : leader.phase ≠ .ended) (s : Server σ μ)
    (peers : List (ServerId × Progress)) (nextBeat : Nat) (report : AppendReport) :
    leader.Takes s (s.handleReport leader peers nextBeat report) := by
  have hnone := sendsIn_nil leader.term
  unfold Server.handleReport
  simp only
  split
  · exact takes_running hphase s hnone _ _ nofun nofun
  · split
    · exact takes_running hphase s hnone _ _ nofun nofun
    · split
      · next hnewer =>
        refine takes_running hphase s hnone _ _ nofun ?_
        rintro term ⟨⟩
        exact hnewer
      · split
        · refine takes_settle hphase s ?_ nextBeat
          split
          · exact sendsIn_dispatchTo s leader.term peers report.peer _
          · exact hnone
        · have hcalls := sendsIn_dispatchTo s leader.term peers report.peer
          generalize hsent : s.dispatchTo leader.term peers report.peer _ = sent
          have hcalls : SendsIn leader.term sent.calls := hsent ▸ hcalls _
          refine takes_running hphase s hcalls _ _ ?_ ?_ <;> cases sent.fault <;> nofun

/-- What a turn of a leader's loop comes to, whatever branch it takes. -/
theorem takes_leaderTurn (clock : Clock) (branch : Branch) (leader : Leader) (s : Server σ μ) :
    leader.Takes s (s.leaderTurn clock branch leader) := by
  have hnone := sendsIn_nil leader.term
  unfold Server.leaderTurn
  cases hphase : leader.phase with
  | ended =>
    exact ⟨hnone, Advances.refl s, rfl, rfl, nofun, fun _ => Or.inr hphase, nofun⟩
  | starting =>
    have hlive : leader.phase ≠ .ended := by rw [hphase]; nofun
    exact takes_running hlive s hnone _ _ nofun nofun
  | running peers nextBeat =>
    have hlive : leader.phase ≠ .ended := by rw [hphase]; nofun
    have hstays : ∀ verdict, (verdict = .halts → leader.stopped) →
        (∀ term, verdict ≠ .stepsDown term) → leader.Takes s ⟨[], leader, s, verdict⟩ :=
      fun verdict hhalts hstepsDown => ⟨hnone, Advances.refl s, rfl, rfl,
        fun _ => ⟨hlive, hlive⟩, fun h => Or.inl (hhalts h), fun term h => absurd h (hstepsDown term)⟩
    cases branch with
    | stop =>
      cases hstopped : leader.stopped with
      | false => exact hstays _ nofun nofun
      | true => exact hstays _ (fun _ => hstopped) nofun
    | beat => exact takes_settle hlive s (sendsIn_dispatch s leader.term _ peers) _
    | wake =>
      simp only
      split
      · obtain ⟨hcalls, hserver, hterm, hstopped, hgoesOn, hhalts, hstepsDown⟩ :=
          @takes_settle σ μ _ { leader with awake := false } hlive s _
            (sendsIn_dispatch s leader.term
              (fun progress => !progress.inFlight && progress.next ≤ s.log.last.index) peers)
            nextBeat
        exact ⟨hcalls, hserver, hterm, hstopped, hgoesOn, hhalts, hstepsDown⟩
      · exact hstays _ nofun nofun
    | outcome report => exact takes_handleReport hlive s peers nextBeat report

/-! ## What a turn does to the server -/

theorem settle_server (s : Server σ μ) (leader : Leader) (sent : Dispatch) (nextBeat : Nat) :
    (s.settle leader sent nextBeat).server = s ∨
      ∃ known, (s.settle leader sent nextBeat).server =
        (s.commitMajority leader.term known).state := by
  unfold Server.settle
  simp only
  split
  · exact Or.inl rfl
  · refine Or.inr ⟨sent.peers, ?_⟩
    split <;> rfl

/-- A turn does nothing to its server, or commits what a majority has. -/
theorem leaderTurn_server (clock : Clock) (branch : Branch) (leader : Leader) (s : Server σ μ) :
    (s.leaderTurn clock branch leader).server = s ∨
      ∃ known, (s.leaderTurn clock branch leader).server =
        (s.commitMajority leader.term known).state := by
  unfold Server.leaderTurn Server.handleReport
  simp only
  split
  · exact Or.inl rfl
  · exact Or.inl rfl
  · split
    · exact Or.inl rfl
    · exact settle_server s leader _ _
    · split
      · exact settle_server s { leader with awake := false } _ _
      · exact Or.inl rfl
    · split
      · exact Or.inl rfl
      · split
        · exact Or.inl rfl
        · split
          · exact Or.inl rfl
          · split
            · exact settle_server s leader _ _
            · exact Or.inl rfl

/-- A loop that takes the branch in which it would end does nothing else. -/
theorem leaderTurn_stop (clock : Clock) (leader : Leader) (s : Server σ μ) :
    ∃ phase verdict,
      s.leaderTurn clock .stop leader = ⟨[], { leader with phase }, s, verdict⟩ ∧
        (verdict = .goesOn ∨ verdict = .halts) := by
  unfold Server.leaderTurn
  cases hphase : leader.phase with
  | ended => exact ⟨leader.phase, .halts, rfl, Or.inr rfl⟩
  | starting => exact ⟨_, .goesOn, rfl, Or.inl rfl⟩
  | running peers nextBeat =>
    refine ⟨leader.phase, _, rfl, ?_⟩
    split
    · exact Or.inr rfl
    · exact Or.inl rfl

end Server

end Quorum
