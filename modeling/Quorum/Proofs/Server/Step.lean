import Quorum.Proofs.Configuration
import Quorum.Proofs.Server.Replication

set_option autoImplicit false

/-! # Steps keep a server sound

What a server is told by others is *sound* if the chronicle bears it out. Then one event leaves it a
sound server, whatever event it is, and its calls and its answer are sound as well. The outcome of a
call for a vote is the one event that stands apart, as it takes the callee off the list of those
from whom an outcome is awaited. -/

namespace Quorum

open Chronicle

/-- What a server is told is true. -/
def Event.Sound (site : Site) (facts : List Fact) : Event → Prop
  | .requestVote request => request.Sound facts
  | .appendEntries request => request.Sound site facts
  | .voteResult _ _ => False
  | .appendResult term report => report.Sound facts term
  | .turn branch => ∀ term, branch.Sound facts term
  | .retiredTurn _ branch => ∀ term, branch.Sound facts term
  | .submit _ | .timerFires | .takeTimeout | .shutDown => True

namespace Server

/-- No loop that was told to end sends anything at the event. -/
def retiredAreSilent {σ μ : Type} [Storage σ] [StateMachine μ] (clock : Clock) (event : Event)
    (s : Server σ μ) : Bool :=
  match event with
  | .retiredTurn _ _ => (s.step clock event).calls.isEmpty
  | .appendResult term _ => s.role.leads term || (s.step clock event).calls.isEmpty
  | _ => true

variable {σ μ : Type} [LawfulStorage σ] [StateMachine μ] {site : Site} {facts : List Fact}
  {s : Server σ μ}

/-- What a step leaves behind is right. -/
structure Stepped (site : Site) (facts : List Fact) (event : Event) (s : Server σ μ)
    (result : StepResult σ μ) : Prop where
  server : result.server.Sound (site.asked result.calls) facts
  calls : ∀ call ∈ result.calls, call.Sound site facts
  vote : ∀ request, event = .requestVote request → ∀ reply, result.answer.voteReply = .ok reply →
    reply.Sound facts site.id request
  append : ∀ request, event = .appendEntries request → ∀ reply,
    result.answer.appendReply = .ok reply → reply.Sound facts site.id request
  raised : s.role.leads result.server.term → Vouched site facts s result.server
  hands : site.prompt → Hands s result.server

/-! ## The start -/

omit [LawfulStorage σ] [StateMachine μ] in
/-- A server starts as a follower that has loaded its disk, and has nothing committed and no loop. -/
theorem start_eq [Storage σ] {clock : Clock} {config : Configuration} {channels : List ServerId}
    {disk : σ} {machine : μ} (h : Server.start clock config channels disk machine = .ok s) :
    config.validate = .ok () ∧ ∃ peers durable, config.connect channels = .ok peers ∧
      DurableState.load config.self disk = .ok durable ∧
      s =
        { config, peers, durable, volatile := .initial, machine, timer := clock.restart .idle,
          timeouts := [], role := .follower, retired := [], isShutDown := false } := by
  unfold Server.start at h
  cases hvalid : config.validate with
  | error e => rw [hvalid] at h; cases h
  | ok =>
    cases hconnect : config.connect channels with
    | error e => rw [hvalid, hconnect] at h; cases h
    | ok peers =>
      cases hload : DurableState.load config.self disk with
      | error e => rw [hvalid, hconnect, hload] at h; cases h
      | ok durable =>
        rw [hvalid, hconnect, hload] at h
        exact ⟨rfl, peers, durable, rfl, rfl, (Except.ok.inj h).symm⟩

omit [StateMachine μ] in
/-- A server that starts from a disk on which all is in order is sound. -/
theorem sound_of_start {clock : Clock} {config : Configuration} {channels : List ServerId}
    {disk : σ} {machine : μ} (h : Server.start clock config channels disk machine = .ok s)
    (hself : config.self = site.id) (hmembers : config.memberIds.Perm site.ids)
    (hpending : ∀ term, site.pending term = [])
    (hpossible : Possible site.ids facts
      (site.others.set site.id ⟨(contents disk).ballot, (contents disk).log, .idle⟩)) :
    s.Sound site facts ∧
      s.profile = ⟨(contents disk).ballot, (contents disk).log, .idle⟩ := by
  obtain ⟨hvalid, peers, durable, hconnect, hload, rfl⟩ := start_eq h
  obtain ⟨hnodup, hmem⟩ := Configuration.nodup_of_validate hvalid
  obtain ⟨hpeers, hothers⟩ := Configuration.connect_eq hconnect
  obtain ⟨hid, rfl, hballot, hlog, hcoherent⟩ := DurableState.load_eq hload
  rw [← hballot, ← hlog] at hpossible ⊢
  refine ⟨⟨⟨hself, ?_, ?_, ?_, hpeers, ?_, ?_⟩, hpossible, ⟨hid.trans hself, hcoherent, ?_⟩,
    trivial, nofun, fun _ => ⟨rfl, Nat.zero_le _, fun hne => absurd rfl hne⟩⟩, rfl⟩
  · exact hself ▸ hmembers.subset hmem
  · exact hmembers.nodup_iff.1 hnodup
  · rw [← hmembers.length_eq]
    exact (List.length_map _).symm
  · intro peer
    rw [hothers, hmembers.mem_iff, hself]
  · -- nobody is awaited when a server starts
    intro term hne
    exact absurd (hpending term) hne
  · have hvalid := hpossible.logsValid.member site.id
    rw [View.set_self] at hvalid
    rw [← hlog]
    exact hvalid

/-! ## Kinds of steps -/

/-- Nobody has asked, nobody is called, and nothing is committed. -/
theorem Stepped.of_quiet {event : Event} {s' : Server σ μ} (hsound : s'.Sound site facts)
    (hquiet : Quiet s s') : Stepped site facts event s ⟨.none, [], s'⟩ where
  server := by
    rw [Site.asked_nil]
    exact hsound
  calls := nofun
  vote := by rintro _ _ _ ⟨⟩
  append := by rintro _ _ _ ⟨⟩
  raised _ := hquiet.vouched
  hands _ := hquiet.hands

theorem Runs.stepped {event : Event} {run : List Call × Server σ μ}
    (hruns : Runs site facts s run) : Stepped site facts event s ⟨.none, run.1, run.2⟩ where
  server := by
    rw [hruns.calls.asked_eq]
    exact hruns.server
  calls call hcall := (hruns.calls call hcall).1
  vote := by rintro _ _ _ ⟨⟩
  append := by rintro _ _ _ ⟨⟩
  raised _ := hruns.vouched
  hands := hruns.hands

/-- A turn of the loop of the present role. -/
theorem Sound.runRole (h : s.Sound site facts) (clock : Clock) {branch : Branch} (event : Event)
    (hbranch : ∀ term, branch.Sound facts term) :
    ∃ facts', facts ⊆ facts' ∧ Stepped site facts' event s
      ⟨.none, (s.runRole clock branch).1, (s.runRole clock branch).2⟩ := by
  unfold Server.runRole
  split
  · exact ⟨facts, List.Subset.refl _, .of_quiet h (Quiet.refl s)⟩
  · next candidate hrole =>
    obtain ⟨facts', hsub, hsound, hcalls⟩ := h.candidateTurn clock hrole
    have hquiet := quiet_candidateTurn clock candidate s
    exact ⟨facts', hsub, hsound, hcalls, by rintro _ _ _ ⟨⟩, by rintro _ _ _ ⟨⟩,
      fun _ => hquiet.vouched, fun _ => hquiet.hands⟩
  · next leader hrole =>
    obtain ⟨facts', hsub, hruns⟩ := h.runLeader clock hrole (hbranch leader.term)
    exact ⟨facts', hsub, hruns.stepped⟩

/-! ## The step -/

/-- What a sound server that is told the truth does is right. -/
theorem Sound.step (h : s.Sound site facts) (clock : Clock) {event : Event}
    (hevent : event.Sound site facts) (hsilent : site.prompt → s.retiredAreSilent clock event) :
    ∃ facts', facts ⊆ facts' ∧ Stepped site facts' event s (s.step clock event) := by
  cases event with
  | requestVote request =>
    obtain ⟨facts', hsub, hsound, hreply⟩ := h.requestVote clock hevent
    have hquiet := quiet_requestVote clock request s
    refine ⟨facts', hsub, ?_, List.forall_mem_nil _, ?_, by rintro _ ⟨⟩, fun _ => hquiet.vouched,
      fun _ => hquiet.hands⟩
    · rw [Server.step, Site.asked_nil]
      exact hsound
    · rintro _ ⟨⟩ reply hok
      exact hreply reply hok
  | appendEntries request =>
    obtain ⟨facts', hsub, hsound, hreply, hhands⟩ := h.appendEntries clock hevent
    refine ⟨facts', hsub, ?_, List.forall_mem_nil _, by rintro _ ⟨⟩, ?_, fun hleads => ?_, hhands⟩
    · rw [Server.step, Site.asked_nil]
      exact hsound
    · rintro _ ⟨⟩ reply hok
      exact hreply reply hok
    · cases hrole : s.role with
      | follower => simp [hrole, Role.leads] at hleads
      | candidate candidate => simp [hrole, Role.leads] at hleads
      | leader leader =>
        have hterm := h.term_eq_of_leader hrole
        rw [hrole] at hleads
        have hstays : leader.term = (s.appendEntries clock request).state.term := eq_of_beq hleads
        exact (quiet_appendEntries clock request hrole (by rw [hterm, hstays])).vouched
  | submit command =>
    obtain ⟨facts', hsub, hsound⟩ := h.submit command
    have hquiet := quiet_submit command s
    refine ⟨facts', hsub, ?_, List.forall_mem_nil _, by rintro _ ⟨⟩, by rintro _ ⟨⟩,
      fun _ => hquiet.vouched, fun _ => hquiet.hands⟩
    rw [Server.step, Site.asked_nil]
    exact hsound
  | voteResult term result => exact hevent.elim
  | appendResult term report =>
    obtain ⟨facts', hsub, hruns⟩ := h.handOutcome clock hevent fun hprompt => by
      simpa [retiredAreSilent, Server.step] using hsilent hprompt
    exact ⟨facts', hsub, hruns.stepped⟩
  | timerFires => exact ⟨facts, List.Subset.refl _, .of_quiet h.fireTimer ⟨rfl, rfl, rfl⟩⟩
  | takeTimeout => exact ⟨facts, List.Subset.refl _, .of_quiet h.takeTimeout (quiet_takeTimeout s)⟩
  | turn branch => exact h.runRole clock _ hevent
  | retiredTurn place branch =>
    obtain ⟨facts', hsub, hruns⟩ := h.runRetired clock (fun leader _ => hevent leader.term)
      fun hprompt => by simpa [retiredAreSilent, Server.step] using hsilent hprompt
    exact ⟨facts', hsub, hruns.stepped⟩
  | shutDown => exact ⟨facts, List.Subset.refl _, .of_quiet h.shutDown (quiet_shutDown s)⟩

/-- The outcome of a call for a vote. The callee is not awaited any more. -/
theorem Sound.stepVote (h : s.Sound site facts) (clock : Clock) {term : Nat} {callee : ServerId}
    {result : Except CallError VoteReply} {pending : Nat → List ServerId}
    (hpending : ∀ other, (pending other).Subperm (site.pending other))
    (hcallee : (callee :: pending term).Subperm (site.pending term)) (hpeer : callee ∈ s.peers)
    (hresult : ∀ reply, result = .ok reply → reply.granted →
      ∃ log, Fact.vote callee term site.id log ∈ facts) :
    Stepped { site with pending } facts (.voteResult term result) s
      (s.step clock (.voteResult term result)) :=
  .of_quiet (h.countVote hpending hcallee hpeer hresult) (quiet_countVote term result s)

end Server

end Quorum
