import Quorum.Proofs.Server.Modes

set_option autoImplicit false

/-! # Loops that were told to end

A loop notices only at its next turn that it was told to end, and by then its server may have another
role, a newer term and another log. A candidate's loop looks first whether it is to end, so it does
no harm. A leader's loop may find several branches open at once and take any of them. If the one
that it takes is the one that ends it, it does no harm either, and then entries are sent only by the
leader of the term that the server is in. Otherwise it sends what its server has by now in the name
of a term that is over. -/

namespace Quorum

/-- The branch that a leader's loop takes at an event. -/
def Event.branch? : Event → Option Branch
  | .turn branch | .retiredTurn _ branch => some branch
  | .appendResult _ report => some (.outcome report)
  | _ => none

namespace Server

variable {σ μ : Type}

/-- The role whose loop has a turn at an event. -/
def turnOf? (s : Server σ μ) : Event → Option Role
  | .turn _ => some s.role
  | .retiredTurn place _ => s.retired[place]?
  | .appendResult term _ =>
      if s.role.leads term then some s.role else s.retired.find? (·.leads term)
  | _ => none

/-- If the loop of a leader that was told to end has a turn, it takes the branch in which it does. -/
def EndsFirst (s : Server σ μ) (event : Event) : Prop :=
  ∀ leader, s.turnOf? event = some (.leader leader) → leader.stopped →
    event.branch? = some .stop

/-- A step brings no calls and changes nothing but the states of loops. In particular term, vote,
    log, indices, machine, timer and mode are as before. -/
def Rests (s : Server σ μ) (result : StepResult σ μ) : Prop :=
  result.calls = [] ∧
    ∃ role retired, result.server = { s with role, retired } ∧ role.mode = s.mode

/-- The one who sends the request is the server's present role and is not to end: the leader of the
    present term sends entries, and a candidate asks for votes in the next term. -/
def Issues (s : Server σ μ) : Request → Prop
  | .append request =>
      ∃ leader, s.role = .leader leader ∧ leader.stopped = false ∧
        request.term = leader.term ∧ request.term = s.term
  | .vote request =>
      ∃ candidate, s.role = .candidate candidate ∧ candidate.stopped = false ∧
        request.term = s.term + 1

/-- A step that rests sends nothing at all. -/
theorem Rests.issues {s : Server σ μ} {result : StepResult σ μ} (h : s.Rests result) :
    ∀ call ∈ result.calls, s.Issues call.request := by
  rw [h.1]
  exact List.forall_mem_nil _

/-! ## Turns of loops that are to end -/

theorem rests_candidateTurn [Storage σ] (clock : Clock) {candidate : Candidate} {s : Server σ μ}
    (hrole : s.role = .candidate candidate) (hstopped : candidate.stopped) :
    s.Rests ⟨.none, (s.candidateTurn clock candidate).1, (s.candidateTurn clock candidate).2⟩ := by
  unfold Server.candidateTurn
  rw [if_pos hstopped]
  refine ⟨rfl, .candidate { candidate with phase := .ended }, s.retired, rfl, ?_⟩
  rw [Server.mode, hrole]
  rfl

variable [Storage σ] [StateMachine μ] {s : Server σ μ}

theorem rests_runLeader (clock : Clock) {leader : Leader} (hrole : s.role = .leader leader) :
    s.Rests ⟨.none, (s.runLeader clock .stop leader).1, (s.runLeader clock .stop leader).2⟩ := by
  have hmode : ∀ leader' : Leader, (Role.leader leader').mode = s.mode := by
    intro leader'
    rw [Server.mode, hrole]
    rfl
  obtain ⟨phase, verdict, heq, rfl | rfl⟩ := leaderTurn_stop clock leader s
  · unfold Server.runLeader
    rw [heq]
    exact ⟨rfl, _, s.retired, rfl, hmode { leader with phase }⟩
  · unfold Server.runLeader
    rw [heq]
    exact ⟨rfl, _, s.retired, rfl, hmode { leader with phase := .ended }⟩

/-- A loop whose role was given up does nothing if it is a candidate's, or takes the branch in which
    it ends. -/
theorem rests_runRetired (clock : Clock) (branch : Branch) (place : Nat)
    (hends : ∀ leader, s.retired[place]? = some (.leader leader) → branch = .stop) :
    s.Rests ⟨.none, (s.runRetired clock branch place).1, (s.runRetired clock branch place).2⟩ := by
  unfold Server.runRetired
  split
  · next leader hplace =>
    obtain rfl := hends leader hplace
    obtain ⟨phase, verdict, heq, rfl | rfl⟩ := leaderTurn_stop clock leader s
    · rw [heq]
      exact ⟨rfl, s.role, _, rfl, rfl⟩
    · rw [heq]
      exact ⟨rfl, s.role, _, rfl, rfl⟩
  · exact ⟨rfl, s.role, _, rfl, rfl⟩
  · exact ⟨rfl, s.role, s.retired, rfl, rfl⟩

/-! ## Turns of the present loop -/

/-- What the loop of the present leader sends is sent in the present term. -/
theorem issues_runLeader (h : s.InOrder) (clock : Clock) (branch : Branch) {leader : Leader}
    (hrole : s.role = .leader leader) (hstopped : leader.stopped = false) :
    ∀ call ∈ (s.runLeader clock branch leader).1, s.Issues call.request := by
  intro call hcall
  rw [runLeader_calls] at hcall
  obtain ⟨request, hrequest, hterm⟩ := (takes_leaderTurn clock branch leader s).calls call hcall
  rw [hrequest]
  have hpresent : s.term = leader.term := congrArg Ballot.term (h.leader hrole).ballot
  exact ⟨leader, hrole, hstopped, hterm, hterm.trans hpresent.symm⟩

omit [StateMachine μ] in
/-- What the loop of the present candidate sends is sent in the term that it opens. -/
theorem issues_candidateTurn (clock : Clock) {candidate : Candidate}
    (hrole : s.role = .candidate candidate) (hstopped : candidate.stopped = false) :
    ∀ call ∈ (s.candidateTurn clock candidate).1, s.Issues call.request := by
  have hround : ∀ call ∈ (s.openRound clock candidate).1, s.Issues call.request := by
    rcases openRound_cases clock candidate s with
      ⟨disk, -, heq⟩ | ⟨-, ⟨-, heq⟩ | ⟨disk, heq⟩⟩ <;> rw [heq]
    · intro call hcall
      obtain ⟨peer, -, rfl⟩ := List.mem_map.1 hcall
      exact ⟨candidate, hrole, hstopped, rfl⟩
    · exact List.forall_mem_nil _
    · exact List.forall_mem_nil _
  unfold Server.candidateTurn
  rw [if_neg (by simp [hstopped])]
  split
  · exact hround
  · exact List.forall_mem_nil _
  · split
    · exact hround
    · exact List.forall_mem_nil _
  · exact List.forall_mem_nil _

/-- A turn of the loop of the present role. -/
theorem obeys_runRole (h : s.InOrder) (clock : Clock) (branch : Branch)
    (hends : ∀ leader, s.role = .leader leader → leader.stopped → branch = .stop) :
    (s.role.isStopped →
      s.Rests ⟨.none, (s.runRole clock branch).1, (s.runRole clock branch).2⟩) ∧
    ∀ call ∈ (s.runRole clock branch).1, s.Issues call.request := by
  unfold Server.runRole
  cases hrole : s.role with
  | follower => exact ⟨nofun, List.forall_mem_nil _⟩
  | candidate candidate =>
    cases hstopped : candidate.stopped with
    | true =>
      have hrests := rests_candidateTurn clock hrole hstopped
      exact ⟨fun _ => hrests, hrests.issues⟩
    | false =>
      exact ⟨fun hstops => absurd (hstopped.symm.trans hstops) nofun,
        issues_candidateTurn clock hrole hstopped⟩
  | leader leader =>
    cases hstopped : leader.stopped with
    | true =>
      obtain rfl := hends leader hrole hstopped
      have hrests := rests_runLeader clock hrole
      exact ⟨fun _ => hrests, hrests.issues⟩
    | false =>
      exact ⟨fun hstops => absurd (hstopped.symm.trans hstops) nofun,
        issues_runLeader h clock branch hrole hstopped⟩

/-! ## Events -/

omit [Storage σ] [StateMachine μ] in
/-- Only leaders lead. -/
theorem exists_leader_of_leads {role : Role} {term : Nat} (h : role.leads term) :
    ∃ leader, role = .leader leader := by
  cases role with
  | leader leader => exact ⟨leader, rfl⟩
  | _ => cases h

/-- An outcome that is handed to a loop gives it the turn. -/
theorem handOutcome_cases (clock : Clock) (term : Nat) (report : AppendReport) (s : Server σ μ) :
    (s.turnOf? (.appendResult term report) = some s.role ∧ s.role.leads term ∧
        s.handOutcome clock term report = s.runRole clock (.outcome report)) ∨
      (∃ role ∈ s.retired, s.turnOf? (.appendResult term report) = some role ∧ role.leads term) ∨
      s.turnOf? (.appendResult term report) = none ∧
        s.handOutcome clock term report = ([], s) := by
  unfold Server.handOutcome
  simp only [turnOf?]
  split
  · next hleads => exact Or.inl ⟨rfl, hleads, rfl⟩
  · refine Or.inr ?_
    cases hfind : s.retired.find? (·.leads term) with
    | some role =>
      have hleads := List.find?_some hfind
      exact Or.inl ⟨role, List.mem_of_find?_eq_some hfind, rfl, hleads⟩
    | none =>
      have hnone : s.retired.findIdx? (·.leads term) = none :=
        List.findIdx?_eq_none_iff.2 (by simpa using hfind)
      exact Or.inr ⟨rfl, by rw [hnone]⟩

/-- Every loop whose role was given up was told to end. If the loop of a leader that was told to end
    does so when it next has a turn, then no such loop does anything at all any more, and whatever
    a server sends, it sends as the active leader of its present term or as the active candidate of
    the next one. -/
theorem stopped_loops_rest (h : s.Reachable) (clock : Clock) {event : Event}
    (hends : s.EndsFirst event) :
    (∀ role ∈ s.retired, role.isStopped) ∧
      (∀ role, s.turnOf? event = some role → role.isStopped → s.Rests (s.step clock event)) ∧
      ∀ call ∈ (s.step clock event).calls, s.Issues call.request := by
  have horder := h.inOrder
  refine ⟨horder.retired, ?_⟩
  cases event with
  | turn branch =>
    have hobeys := obeys_runRole horder clock branch fun leader hrole hstopped =>
      Option.some.inj (hends leader (congrArg some hrole) hstopped)
    refine ⟨?_, hobeys.2⟩
    rintro _ ⟨⟩ hstopped
    exact hobeys.1 hstopped
  | retiredTurn place branch =>
    have hrests := rests_runRetired (s := s) clock branch place fun leader hplace =>
      Option.some.inj (hends leader hplace (horder.retired _ (List.mem_of_getElem? hplace)))
    exact ⟨fun _ _ _ => hrests, hrests.issues⟩
  | appendResult term report =>
    -- an outcome is no end, so the loop that gets it is not one that was told to end
    have hactive : ∀ leader, s.turnOf? (.appendResult term report) = some (.leader leader) →
        ¬ leader.stopped := fun leader hturn hstopped => by
      have hbranch := hends leader hturn hstopped
      cases hbranch
    rcases handOutcome_cases clock term report s with
      ⟨hturn, hleads, heq⟩ | ⟨role, hmem, hturn, hleads⟩ | ⟨hturn, heq⟩
    · obtain ⟨leader, hrole⟩ := exists_leader_of_leads hleads
      rw [hrole] at hturn
      have hstopped := hactive leader hturn
      refine ⟨fun role hother hstops => ?_, ?_⟩
      · obtain rfl := Option.some.inj (hturn.symm.trans hother)
        exact absurd hstops hstopped
      · show ∀ call ∈ (s.handOutcome clock term report).1, _
        rw [heq]
        exact (obeys_runRole horder clock _ fun other hother hstops => by
          obtain rfl := Role.leader.inj (hrole.symm.trans hother)
          exact absurd hstops hstopped).2
    · obtain ⟨leader, rfl⟩ := exists_leader_of_leads hleads
      exact absurd (horder.retired _ hmem) (hactive leader hturn)
    · refine ⟨fun role hother => ?_, ?_⟩
      · rw [hturn] at hother
        cases hother
      · show ∀ call ∈ (s.handOutcome clock term report).1, _
        rw [heq]
        exact List.forall_mem_nil _
  | _ => exact ⟨nofun, List.forall_mem_nil _⟩

/-- Server 1 wins the election in term 1, and then server 3 leads term 2 and sends its first
    entry. -/
def deposition : List (Clock × Event) :=
  campaign ++
    [(⟨2, 1⟩, .turn .stop), (⟨2, 1⟩, .turn .stop),
      (⟨3, 1⟩, .appendEntries ⟨2, ⟨3⟩, .origin, [⟨2, 1, []⟩], 0⟩)]

/-- The server once it has been deposed. The loop of term 1 has not noticed yet. -/
def deposed : Server (Fated Contents) KeyValue.Store := (newcomer []).after deposition

/-- A loop that takes the branch in which it ends rests. -/
theorem stopped_loops_rest_deposed :
    deposed.retired.map Role.isStopped = [true] ∧
      deposed.Rests (deposed.step ⟨3, 1⟩ (.retiredTurn 0 .stop)) := by
  have hreachable : deposed.Reachable := (reachable_newcomer []).after _
  have hends : deposed.EndsFirst (.retiredTurn 0 .stop) := fun _ _ _ => rfl
  exact ⟨rfl, (stopped_loops_rest hreachable ⟨3, 1⟩ hends).2.1 _ rfl rfl⟩

/-- One that takes its heartbeat instead sends the entry of term 2 to everybody, in term 1. -/
theorem not_stopped_loops_rest_deposed :
    ¬ ∀ s : Server (Fated Contents) KeyValue.Store, s.Reachable → ∀ (clock : Clock) (event : Event),
      (∀ role, s.turnOf? event = some role → role.isStopped → s.Rests (s.step clock event)) ∧
        ∀ call ∈ (s.step clock event).calls, s.Issues call.request := by
  intro h
  have hreachable : deposed.Reachable := (reachable_newcomer []).after _
  obtain ⟨hrests, hissues⟩ := h deposed hreachable ⟨3, 1⟩ (.retiredTurn 0 .beat)
  have hcalls : (deposed.step ⟨3, 1⟩ (.retiredTurn 0 .beat)).calls =
      [⟨⟨2⟩, .append ⟨1, ⟨1⟩, .origin, [⟨2, 1, []⟩], 0⟩⟩,
        ⟨⟨3⟩, .append ⟨1, ⟨1⟩, .origin, [⟨2, 1, []⟩], 0⟩⟩] := by
    decide
  have hfollower : deposed.role = .follower := rfl
  rw [hcalls] at hissues
  obtain ⟨leader, hrole, -⟩ := hissues _ (List.mem_cons_self ..)
  rw [hfollower] at hrole
  cases hrole

end Server

end Quorum
