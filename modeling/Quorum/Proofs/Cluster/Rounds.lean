import Mathlib.Data.List.Induction
import Quorum.Proofs.Cluster.Basic
import Quorum.Proofs.Server.Modes

set_option autoImplicit false

/-! # One round of votes per term

One member of the cluster over its whole life. It is started from its disk, anything may be sent to
it, its disk may refuse any write, and it may go down at any time and be started again. What it does
in the rounds of votes that it opens does not depend on any of this: each is in a newer term than
those before, over restarts as well, its own vote is on the disk before anybody is asked, all are
asked the same, and if it wins, the log that it leads with is the one that the request has told of.

Of a disk it is only supposed here that a call that fails changes nothing. -/

namespace Quorum

/-! ## Lives -/

/-- Something that happens to a member of the cluster. -/
inductive Incident where
  /-- It is started from its disk, if it is down. -/
  | start (clock : Clock) (config : Configuration) (channels : List ServerId)
  /-- It goes down, and only its disk is left. -/
  | crash
  /-- An event, if it is up. -/
  | event (clock : Clock) (event : Event)

/-- What a member starts with. -/
structure Lifetime (σ μ : Type) where
  id : ServerId
  /-- The machine of a server that was just started. -/
  machine : μ
  /-- The disk before the first start. -/
  disk : σ

/-- What a call asks for, if it asks for a vote. -/
def Call.voteRequest? (call : Call) : Option VoteRequest :=
  match call.request with
  | .vote request => some request
  | .append _ => none

namespace Host

variable {σ μ : Type}

/-- Whether the member leads a term. -/
def leads (host : Host σ μ) (term : Nat) : Bool :=
  match host with
  | .up s => s.role.leads term
  | .down _ => false

variable [Storage σ] [StateMachine μ]

/-- The calls that an incident brings. -/
def calls (host : Host σ μ) (incident : Incident) : List Call :=
  match host, incident with
  | .up s, .event clock event => (s.step clock event).calls
  | _, _ => []

omit [StateMachine μ] in
/-- The request of the round that an incident opens. -/
def opens? (host : Host σ μ) (incident : Incident) : Option VoteRequest :=
  match host, incident with
  | .up s, .event _ event => s.opens? event
  | _, _ => none

theorem calls_down (disk : σ) (incident : Incident) :
    (Host.down disk : Host σ μ).calls incident = [] := by
  cases incident <;> rfl

omit [StateMachine μ] in
theorem opens?_down (disk : σ) (incident : Incident) :
    (Host.down disk : Host σ μ).opens? incident = none := by
  cases incident <;> rfl

end Host

namespace Lifetime

variable {σ μ : Type} [Storage σ] [StateMachine μ]

/-- The member after an incident. -/
def next (life : Lifetime σ μ) (host : Host σ μ) (incident : Incident) : Host σ μ :=
  match host, incident with
  | .down disk, .start clock config channels =>
      if config.self = life.id then
        match Server.start clock config channels disk life.machine with
        | .ok s => .up s
        | .error _ => host
      else host
  | .up s, .event clock event => .up (s.step clock event).server
  | _, .crash => .down host.disk
  | _, _ => host

/-- The member after some incidents. -/
def after (life : Lifetime σ μ) (incidents : List Incident) : Host σ μ :=
  incidents.foldl life.next (.down life.disk)

/-- What is seen of some incidents, one after the other. -/
def trace {α : Type} (life : Lifetime σ μ) (observe : Host σ μ → Incident → List α)
    (host : Host σ μ) : List Incident → List α
  | [] => []
  | incident :: incidents =>
      observe host incident ++ life.trace observe (life.next host incident) incidents

/-- The rounds of votes that are opened, each with what is asked in it. -/
def rounds (life : Lifetime σ μ) (incidents : List Incident) : List VoteRequest :=
  life.trace (fun host incident => (host.opens? incident).toList) (.down life.disk) incidents

/-- All requests for votes that are sent. -/
def asked (life : Lifetime σ μ) (incidents : List Incident) : List VoteRequest :=
  life.trace (fun host incident => (host.calls incident).filterMap Call.voteRequest?)
    (.down life.disk) incidents

theorem after_concat (life : Lifetime σ μ) (incidents : List Incident) (incident : Incident) :
    life.after (incidents ++ [incident]) = life.next (life.after incidents) incident :=
  List.foldl_concat ..

theorem trace_concat {α : Type} (life : Lifetime σ μ)
    (observe : Host σ μ → Incident → List α) (host : Host σ μ) (incidents : List Incident)
    (incident : Incident) :
    life.trace observe host (incidents ++ [incident]) =
      life.trace observe host incidents ++ observe (incidents.foldl life.next host) incident := by
  induction incidents generalizing host with
  | nil => exact List.append_nil _
  | cons first incidents ih =>
    rw [List.cons_append, trace, trace, ih, List.append_assoc]
    rfl

theorem rounds_concat (life : Lifetime σ μ) (incidents : List Incident) (incident : Incident) :
    life.rounds (incidents ++ [incident]) =
      life.rounds incidents ++ ((life.after incidents).opens? incident).toList :=
  life.trace_concat ..

theorem asked_concat (life : Lifetime σ μ) (incidents : List Incident) (incident : Incident) :
    life.asked (incidents ++ [incident]) =
      life.asked incidents ++
        ((life.after incidents).calls incident).filterMap Call.voteRequest? :=
  life.trace_concat ..

end Lifetime

/-! ## What a server stands for -/

theorem Role.standing_counting {candidate : Candidate} {term : Nat} {tally : Tally}
    (h : candidate.phase = .counting term tally) :
    (Role.candidate candidate).standing = .running term := by
  show candidate.phase.standing = _
  rw [h]
  rfl

/-- Who stands for leading a term leads it. -/
theorem Role.leads_of_standing {role : Role} {term : Nat} (h : role.standing = .leading term) :
    role.leads term := by
  cases role with
  | follower => cases h
  | candidate candidate =>
    obtain ⟨phase, stopped, timedOut⟩ := candidate
    cases phase <;> cases h
  | leader leader =>
    cases h
    exact beq_self_eq_true leader.term

namespace Server

variable {σ μ : Type}

/-- A server stands for nothing, or still for what it has stood for. In the latter case its log is
    the same as long as votes are counted. -/
structure Stands (s s' : Server σ μ) : Prop where
  config : s'.config = s.config
  standing : s'.role.standing = .idle ∨
    s'.role.standing = s.role.standing ∧
      ∀ term, s.role.standing = .running term → s'.log = s.log

theorem Stands.refl (s : Server σ μ) : s.Stands s := ⟨rfl, Or.inr ⟨rfl, fun _ _ => rfl⟩⟩

theorem Stands.trans {s s' s'' : Server σ μ} (h : s.Stands s') (h' : s'.Stands s'') :
    s.Stands s'' := by
  refine ⟨h'.config.trans h.config, ?_⟩
  rcases h'.standing with hidle | ⟨hsame, hlog⟩
  · exact Or.inl hidle
  · rcases h.standing with hidle | ⟨hsame', hlog'⟩
    · exact Or.inl (hsame.trans hidle)
    · refine Or.inr ⟨hsame.trans hsame', fun term hrunning => ?_⟩
      exact (hlog term (hsame'.trans hrunning)).trans (hlog' term hrunning)

theorem stands_takeTimeout (s : Server σ μ) : s.Stands s.takeTimeout := by
  unfold Server.takeTimeout Server.becomeCandidate
  split
  · exact Stands.refl s
  · split
    · exact Stands.refl s
    · simp only
      split
      · split
        · next hrole =>
          rw [hrole]
          split <;> exact ⟨rfl, Or.inl rfl⟩
        · next candidate hrole => exact ⟨rfl, Or.inr ⟨by rw [hrole]; rfl, fun _ _ => rfl⟩⟩
        · exact ⟨rfl, Or.inr ⟨rfl, fun _ _ => rfl⟩⟩
      · exact ⟨rfl, Or.inr ⟨rfl, fun _ _ => rfl⟩⟩

/-- Nothing but the opening of a round and a victory raises what a server stands for. -/
theorem Moves.stands {s s' : Server σ μ} (h : s.Moves s') : s.Stands s' := by
  cases h with
  | advances hadvances =>
    obtain ⟨committed, applied, machine, rfl⟩ := hadvances
    exact ⟨rfl, Or.inr ⟨rfl, fun _ _ => rfl⟩⟩
  | writes durable hretains hlog => exact ⟨rfl, Or.inr ⟨rfl, hlog⟩⟩
  | votes candidate disk hvoted => exact ⟨rfl, Or.inr ⟨rfl, fun _ _ => rfl⟩⟩
  | follows clock durable role hid hguarded hmode =>
    obtain ⟨retired, leader, timer, heq, -⟩ :=
      becomeFollower_eq clock ({ s with durable, role } : Server σ μ)
    rw [heq]
    exact ⟨rfl, Or.inl rfl⟩
  | hears clock leader hrole => exact ⟨rfl, Or.inr ⟨rfl, fun _ _ => rfl⟩⟩
  | counts candidate term tally phase hrole hphase hnext =>
    rcases hnext with rfl | ⟨tally', rfl⟩
    · exact ⟨rfl, Or.inl rfl⟩
    · refine ⟨rfl, Or.inr ⟨?_, fun _ _ => rfl⟩⟩
      rw [hrole]
      exact (Role.standing_counting hphase).symm
  | ends candidate hrole hends => exact ⟨rfl, Or.inl rfl⟩
  | leads leader leader' hrole hterm hstopped hphase =>
    refine ⟨rfl, Or.inr ⟨?_, fun _ _ => rfl⟩⟩
    rw [hrole, Role.standing_leader, Role.standing_leader, hterm]
  | retires retired hretired => exact ⟨rfl, Or.inr ⟨rfl, fun _ _ => rfl⟩⟩
  | fires => exact ⟨rfl, Or.inr ⟨rfl, fun _ _ => rfl⟩⟩
  | looks => exact stands_takeTimeout s
  | shutsDown =>
    unfold Server.shutDown
    split
    · exact Stands.refl s
    · exact ⟨rfl, Or.inr ⟨Role.standing_stop s.role, fun _ _ => rfl⟩⟩

theorem Becomes.stands {s s' : Server σ μ} (h : s.Becomes s') : s.Stands s' := by
  induction h with
  | refl => exact Stands.refl s
  | tail _ hmoves ih => exact ih.trans hmoves.stands

end Server

/-! ## The rounds so far -/

namespace Lifetime

variable {σ μ : Type} [LawfulStorage σ] [StateMachine μ]

/-- How a server that runs relates to the rounds that were opened so far. If one is still open, the
    log ends where its request says. -/
structure Minds (life : Lifetime σ μ) (rounds : List VoteRequest) (s : Server σ μ) : Prop where
  self : s.id = life.id
  coherent : s.durable.Coherent
  order : s.InOrder
  counting : ∀ term, s.role.standing = .running term →
    ∃ request ∈ rounds, request.term = term ∧ request.last = s.log.last

/-- How a member relates to the rounds that were opened so far: they are in order, and none is in a
    term that the disk has not reached. -/
structure Accounts (life : Lifetime σ μ) (rounds : List VoteRequest) (host : Host σ μ) : Prop where
  increasing : rounds.Pairwise fun earlier later => earlier.term < later.term
  reached : ∀ request ∈ rounds, request.term ≤ (contents host.disk).ballot.term
  up : ∀ s, host = .up s → life.Minds rounds s

variable {life : Lifetime σ μ} {rounds : List VoteRequest}

omit [StateMachine μ] in
/-- Nobody starts with a round open. -/
theorem Accounts.start {disk : σ} (h : life.Accounts rounds (.down disk)) {clock : Clock}
    {config : Configuration} {channels : List ServerId} {s : Server σ μ}
    (hself : config.self = life.id)
    (hstart : Server.start clock config channels disk life.machine = .ok s) :
    life.Accounts rounds (.up s) := by
  have horder := Server.inOrder_of_start hstart
  obtain ⟨-, peers, durable, -, hload, rfl⟩ := Server.start_eq hstart
  obtain ⟨-, hdisk, -, -, hcoherent⟩ := DurableState.load_eq hload
  refine ⟨h.increasing, ?_, ?_⟩
  · show ∀ request ∈ rounds, request.term ≤ (contents durable.disk).ballot.term
    rw [hdisk]
    exact h.reached
  · rintro _ ⟨⟩
    exact ⟨hself, hcoherent, horder, nofun⟩

/-- What an event does to the rounds. -/
theorem Accounts.step {s : Server σ μ} (h : life.Accounts rounds (.up s)) (clock : Clock)
    (event : Event) :
    life.Accounts (rounds ++ (s.opens? event).toList) (.up (s.step clock event).server) := by
  obtain ⟨hself, hcoherent, horder, hcounting⟩ := h.up s rfl
  have hevolves := Server.evolves_step clock event s
  have hcoherent' := hevolves.coherent hcoherent
  have horder' := horder.step clock event
  have hcomes := horder.comes clock event
  have hterm : s.term ≤ (s.step clock event).server.term := hevolves.term_le
  -- the terms of the rounds so far, first as the server knows them and then on its disk
  have hbefore : ∀ request ∈ rounds, request.term ≤ s.term := by
    intro request hrequest
    have hle := h.reached request hrequest
    rwa [Host.disk, hcoherent.ballot] at hle
  have hreached : ∀ request ∈ rounds,
      request.term ≤ (contents (s.step clock event).server.durable.disk).ballot.term := by
    intro request hrequest
    rw [hcoherent'.ballot]
    exact Nat.le_trans (hbefore request hrequest) hterm
  generalize (s.step clock event).calls = calls at hcomes
  generalize (s.step clock event).server = s' at *
  cases hcomes with
  | becomes hopens hcalls hbecomes =>
    have hstands := Server.Becomes.stands hbecomes
    rw [hopens, Option.toList_none, List.append_nil]
    refine ⟨h.increasing, hreached, ?_⟩
    rintro _ ⟨⟩
    refine ⟨(congrArg Configuration.self hstands.config).trans hself, hcoherent', horder', ?_⟩
    intro term hrunning
    rcases hstands.standing with hidle | ⟨hsame, hlog⟩
    · rw [hidle] at hrunning
      cases hrunning
    · have hrunning' := hsame.symm.trans hrunning
      rw [hlog term hrunning']
      exact hcounting term hrunning'
  | opens clock' candidate disk hopens hrole =>
    rw [hopens, Option.toList_some]
    refine ⟨?_, ?_, ?_⟩
    · refine List.pairwise_append.2 ⟨h.increasing, List.pairwise_singleton _ _, ?_⟩
      intro earlier hearlier later hlater
      obtain rfl := List.mem_singleton.1 hlater
      exact Nat.lt_succ_of_le (hbefore earlier hearlier)
    · intro request hrequest
      rcases List.mem_append.1 hrequest with hold | hlast
      · exact hreached request hold
      · obtain rfl := List.mem_singleton.1 hlast
        exact Nat.le_of_eq (congrArg Ballot.term hcoherent'.ballot).symm
    · rintro _ ⟨⟩
      refine ⟨hself, hcoherent', horder', ?_⟩
      rintro _ ⟨⟩
      exact ⟨_, List.mem_append_right _ (List.mem_singleton_self _), rfl, rfl⟩
  | wins candidate term tally hopens hrole hphase =>
    rw [hopens, Option.toList_none, List.append_nil]
    refine ⟨h.increasing, hreached, ?_⟩
    rintro _ ⟨⟩
    exact ⟨hself, hcoherent', horder', nofun⟩

/-- What an incident does to the rounds. -/
theorem Accounts.next {host : Host σ μ} (h : life.Accounts rounds host) (incident : Incident) :
    life.Accounts (rounds ++ (host.opens? incident).toList) (life.next host incident) := by
  cases host with
  | down disk =>
    rw [Host.opens?_down, Option.toList_none, List.append_nil]
    cases incident with
    | start clock config channels =>
      unfold Lifetime.next
      simp only
      split
      · next hself =>
        split
        · next s hstart => exact h.start hself hstart
        · exact h
      · exact h
    | crash => exact h
    | event clock event => exact h
  | up s =>
    cases incident with
    | start clock config channels =>
      -- no round is opened by this
      show life.Accounts (rounds ++ []) (.up s)
      rw [List.append_nil]
      exact h
    | crash =>
      show life.Accounts (rounds ++ []) (.down s.durable.disk)
      rw [List.append_nil]
      refine ⟨h.increasing, h.reached, fun s' hup => ?_⟩
      cases hup
    | event clock event => exact h.step clock event

/-- This is so after any incidents. -/
theorem accounts (life : Lifetime σ μ) (incidents : List Incident) :
    life.Accounts (life.rounds incidents) (life.after incidents) := by
  induction incidents using List.reverseRecOn with
  | nil =>
    refine ⟨List.Pairwise.nil, List.forall_mem_nil _, fun s hup => ?_⟩
    cases hup
  | append_singleton incidents incident ih =>
    rw [after_concat, rounds_concat]
    exact ih.next incident

/-! ## The requests -/

/-- A request for votes is that of the round which is opened at the moment, and the disk holds the
    term of the round with the own vote. -/
theorem Accounts.calls {host : Host σ μ} (h : life.Accounts rounds host) {incident : Incident}
    {request : VoteRequest}
    (hrequest : request ∈ (host.calls incident).filterMap Call.voteRequest?) :
    host.opens? incident = some request ∧ request.candidate = life.id ∧
      (contents (life.next host incident).disk).ballot = ⟨request.term, some life.id⟩ := by
  cases host with
  | down disk =>
    rw [Host.calls_down] at hrequest
    cases hrequest
  | up s =>
    cases incident with
    | start clock config channels => cases hrequest
    | crash => cases hrequest
    | event clock event =>
      obtain ⟨hself, hcoherent, horder, -⟩ := h.up s rfl
      obtain ⟨call, hcall, hasks⟩ := List.mem_filterMap.1 hrequest
      have hcoherent' := (Server.evolves_step clock event s).coherent hcoherent
      have hcomes := horder.comes clock event
      show s.opens? event = _ ∧ _ ∧
        (contents (s.step clock event).server.durable.disk).ballot = _
      rw [hcoherent'.ballot]
      have hcall : call ∈ (s.step clock event).calls := hcall
      generalize (s.step clock event).calls = calls at hcomes hcall
      generalize (s.step clock event).server = s' at hcomes ⊢
      cases hcomes with
      | becomes hopens hsends hbecomes =>
        obtain ⟨append, happend⟩ := hsends call hcall
        simp [Call.voteRequest?, happend] at hasks
      | opens clock' candidate disk hopens hrole =>
        obtain ⟨peer, -, rfl⟩ := List.mem_map.1 hcall
        obtain rfl := Option.some.inj hasks
        refine ⟨hopens, hself, ?_⟩
        show Ballot.mk (s.term + 1) (some s.durable.id) = ⟨s.term + 1, some life.id⟩
        rw [horder.id, hself]
      | wins => cases hcall

/-- Who begins to lead has had a round of this term open, and leads with the log of its request. -/
theorem Accounts.wins {host : Host σ μ} (h : life.Accounts rounds host) {incident : Incident}
    {s' : Server σ μ} {leader : Leader} (hnext : life.next host incident = .up s')
    (hleads : s'.role = .leader leader) (hbefore : ¬ host.leads leader.term) :
    ∃ request ∈ rounds, request.term = leader.term ∧ request.last = s'.log.last := by
  have hstanding : s'.role.standing = .leading leader.term := by
    rw [hleads]
    rfl
  cases host with
  | down disk =>
    -- nobody starts as a leader
    cases incident with
    | start clock config channels =>
      unfold Lifetime.next at hnext
      simp only at hnext
      split at hnext
      · split at hnext
        · next s hstart =>
          obtain ⟨-, peers, durable, -, -, rfl⟩ := Server.start_eq hstart
          cases hnext
          cases hleads
        · cases hnext
      · cases hnext
    | crash => cases hnext
    | event clock event => cases hnext
  | up s =>
    have hstays : s.role.standing ≠ .leading leader.term :=
      fun hstands => hbefore (Role.leads_of_standing hstands)
    cases incident with
    | start clock config channels =>
      cases hnext
      exact absurd hstanding hstays
    | crash => cases hnext
    | event clock event =>
      obtain ⟨-, -, horder, hcounting⟩ := h.up s rfl
      have hcomes := horder.comes clock event
      obtain rfl : (s.step clock event).server = s' := Host.up.inj hnext
      generalize (s.step clock event).calls = calls at hcomes
      generalize (s.step clock event).server = s' at *
      cases hcomes with
      | becomes hopens hsends hbecomes =>
        rcases (Server.Becomes.stands hbecomes).standing with hidle | ⟨hsame, -⟩
        · rw [hidle] at hstanding
          cases hstanding
        · exact absurd (hsame.symm.trans hstanding) hstays
      | opens clock' candidate disk hopens hrole => cases hleads
      | wins candidate term tally hopens hrole hphase =>
        cases hleads
        refine hcounting term ?_
        rw [hrole]
        exact Role.standing_counting hphase

/-! ## One round per term -/

/-- All about the rounds of votes of a member and the requests that it sends for them. -/
structure OneRoundPerTerm (life : Lifetime σ μ) (incidents : List Incident) : Prop where
  /-- Each round is in a newer term than those before. -/
  increasing : (life.rounds incidents).Pairwise fun earlier later => earlier.term < later.term
  /-- Whoever counts votes does so in one of these rounds. -/
  counting : ∀ s candidate term tally, life.after incidents = .up s →
    s.role = .candidate candidate → candidate.phase = .counting term tally →
    ∃ request ∈ life.rounds incidents, request.term = term
  /-- Requests for votes are sent only in these rounds. -/
  asked : ∀ request ∈ life.asked incidents, request ∈ life.rounds incidents
  /-- All requests of one term are the same. -/
  same : ∀ request ∈ life.asked incidents, ∀ other ∈ life.asked incidents,
    request.term = other.term → request = other
  /-- When a request is sent, the disk holds its term with a vote for the one who asks. -/
  stored : ∀ before incident, before ++ [incident] <+: incidents →
    ∀ call ∈ (life.after before).calls incident, ∀ request, call.request = .vote request →
      request.candidate = life.id ∧
        (contents (life.after (before ++ [incident])).disk).ballot =
          ⟨request.term, some life.id⟩
  /-- Who begins to lead a term has opened a round in it, and leads with the log whose end the
      request has told. -/
  wins : ∀ before incident, before ++ [incident] <+: incidents →
    ∀ s leader, life.after (before ++ [incident]) = .up s → s.role = .leader leader →
      ¬ (life.after before).leads leader.term →
      ∃ request ∈ life.rounds before, request.term = leader.term ∧ request.last = s.log.last

theorem mem_rounds_of_mem_asked (life : Lifetime σ μ) (incidents : List Incident)
    {request : VoteRequest} (h : request ∈ life.asked incidents) :
    request ∈ life.rounds incidents := by
  induction incidents using List.reverseRecOn with
  | nil => cases h
  | append_singleton incidents incident ih =>
    rw [asked_concat] at h
    rw [rounds_concat]
    rcases List.mem_append.1 h with hold | hnew
    · exact List.mem_append_left _ (ih hold)
    · obtain ⟨hopens, -⟩ := (life.accounts incidents).calls hnew
      rw [hopens]
      exact List.mem_append_right _ (List.mem_singleton_self _)

/-- A member opens at most one round of votes in a term, whatever happens to it. -/
theorem one_round_per_term (life : Lifetime σ μ) (incidents : List Incident) :
    life.OneRoundPerTerm incidents := by
  have haccounts := life.accounts incidents
  have hasked : ∀ request ∈ life.asked incidents, request ∈ life.rounds incidents :=
    fun request => life.mem_rounds_of_mem_asked incidents
  refine ⟨haccounts.increasing, ?_, hasked, ?_, ?_, ?_⟩
  · intro s candidate term tally hup hrole hphase
    have hrunning : s.role.standing = .running term := by
      rw [hrole]
      exact Role.standing_counting hphase
    obtain ⟨request, hrequest, hterm, -⟩ := (haccounts.up s hup).counting term hrunning
    exact ⟨request, hrequest, hterm⟩
  · have hunique : ∀ ⦃request⦄, request ∈ life.rounds incidents → ∀ ⦃other⦄,
        other ∈ life.rounds incidents → request.term = other.term → request = other :=
      List.Pairwise.forall_of_forall_of_flip (fun _ _ _ => rfl)
        (haccounts.increasing.imp fun hlt heq => absurd heq (Nat.ne_of_lt hlt))
        (haccounts.increasing.imp fun hlt heq => absurd heq (Nat.ne_of_gt hlt))
    exact fun request hrequest other hother =>
      hunique (hasked request hrequest) (hasked other hother)
  · intro before incident _ call hcall request hasks
    have hrequest : request ∈ ((life.after before).calls incident).filterMap Call.voteRequest? :=
      List.mem_filterMap.2 ⟨call, hcall, by rw [Call.voteRequest?, hasks]⟩
    obtain ⟨-, hself, hstored⟩ := (life.accounts before).calls hrequest
    rw [after_concat]
    exact ⟨hself, hstored⟩
  · intro before incident _ s leader hup hrole hbefore
    rw [after_concat] at hup
    exact (life.accounts before).wins hup hrole hbefore

/-- Server 1 of three, with an empty disk that refuses the second write. -/
def candidacies : Lifetime (Fated Contents) KeyValue.Store where
  id := ⟨1⟩
  machine := .empty
  disk := ⟨.blank, [false, true]⟩

/-- It opens a round and goes down. After a restart its disk refuses the next round at first, and
    the one that it opens then is won. -/
def comeback : List Incident :=
  let start : Incident := .start ⟨0, 1⟩ (Server.newcomer []).config [⟨2⟩, ⟨3⟩]
  let stand : List Incident :=
    [.event ⟨1, 1⟩ .timerFires, .event ⟨1, 1⟩ .takeTimeout, .event ⟨1, 1⟩ (.turn .stop)]
  [start] ++ stand ++ [.crash, start] ++ stand ++ stand ++
    [.event ⟨2, 1⟩ (.voteResult 2 (.ok ⟨2, true⟩)), .event ⟨2, 1⟩ (.turn .stop)]

theorem one_round_per_term_comeback :
    candidacies.OneRoundPerTerm comeback ∧
      candidacies.rounds comeback = [⟨1, ⟨1⟩, .origin⟩, ⟨2, ⟨1⟩, .origin⟩] ∧
      candidacies.asked comeback =
        [⟨1, ⟨1⟩, .origin⟩, ⟨1, ⟨1⟩, .origin⟩, ⟨2, ⟨1⟩, .origin⟩, ⟨2, ⟨1⟩, .origin⟩] ∧
      (candidacies.after comeback).leads 2 :=
  ⟨candidacies.one_round_per_term comeback, by decide, by decide, by decide⟩

end Lifetime

end Quorum
