import Quorum.Proofs.Server.Quiet

set_option autoImplicit false

/-! # Answering requests

A request is *sound* if the one who asks has done what it says: a candidate has opened the round, a
leader has cut the entries from its log. A sound server that answers it stays sound, and what it
answers is true: a vote that it says it gives is given, and what it says it has taken it has. -/

namespace Quorum

open Chronicle

/-! ## Requests and answers -/

/-- A candidate has opened a round with the log of which it tells the end. -/
def VoteRequest.Sound (facts : List Fact) (request : VoteRequest) : Prop :=
  ∃ log, Fact.round request.term request.candidate log ∈ facts ∧ request.last = endOf log

/-- The member has given its vote to the candidate if it says so. -/
def VoteReply.Sound (facts : List Fact) (member : ServerId) (request : VoteRequest)
    (reply : VoteReply) : Prop :=
  reply.granted → ∃ log, Fact.vote member request.term request.candidate log ∈ facts

/-- A leader has sent the entries, and what it says is committed of them is chosen. -/
def AppendRequest.Sound (site : Site) (facts : List Fact) (request : AppendRequest) : Prop :=
  ∃ log, Fact.sent request log ∈ facts ∧
    (site.prompt → Settled site.ids facts request.term (log.take request.commit))

/-- The member has acknowledged a log that reaches to the last of the entries if it says so. -/
def AppendReply.Sound (facts : List Fact) (member : ServerId) (request : AppendRequest)
    (reply : AppendReply) : Prop :=
  reply.success →
    ∃ log, Fact.ack member request.term log ∈ facts ∧ request.lastIndex ≤ log.length

variable {facts facts' : List Fact}

theorem VoteRequest.Sound.mono {request : VoteRequest} (h : request.Sound facts)
    (hsub : facts ⊆ facts') : request.Sound facts' := by
  obtain ⟨log, hround, hlast⟩ := h
  exact ⟨log, hsub hround, hlast⟩

theorem VoteReply.Sound.mono {member : ServerId} {request : VoteRequest} {reply : VoteReply}
    (h : reply.Sound facts member request) (hsub : facts ⊆ facts') :
    reply.Sound facts' member request := by
  intro hgranted
  obtain ⟨log, hvote⟩ := h hgranted
  exact ⟨log, hsub hvote⟩

theorem AppendRequest.Sound.mono {site : Site} {request : AppendRequest}
    (h : request.Sound site facts) (hsub : facts ⊆ facts') : request.Sound site facts' := by
  obtain ⟨log, hsent, hcommit⟩ := h
  exact ⟨log, hsub hsent, fun hprompt =>
    (hcommit hprompt).mono hsub (Nat.le_refl _) List.prefix_rfl⟩

theorem AppendReply.Sound.mono {member : ServerId} {request : AppendRequest}
    {reply : AppendReply} (h : reply.Sound facts member request) (hsub : facts ⊆ facts') :
    reply.Sound facts' member request := by
  intro hsuccess
  obtain ⟨log, hack, hle⟩ := h hsuccess
  exact ⟨log, hsub hack, hle⟩

namespace Server

variable {σ μ : Type} [LawfulStorage σ] {site : Site} {s : Server σ μ}

/-! ## Votes -/

/-- A vote that the server decides on is borne out by the chronicle, which may grow by it. -/
theorem Sound.decideVote (h : s.Sound site facts) {request : VoteRequest}
    (hrequest : request.Sound facts) :
    ∃ facts', facts ⊆ facts' ∧ (s.decideVote request).state.Sound site facts' ∧
      ∀ reply, (s.decideVote request).result = .ok reply →
        reply.Sound facts' site.id request := by
  unfold Server.decideVote
  split
  · exact ⟨facts, List.Subset.refl _, h, by rintro reply ⟨⟩ ⟨⟩⟩
  · have hgrants := s.durable.grants_grantVote request.term request.candidate request.last
    generalize s.durable.grantVote request.term request.candidate request.last = granted
      at hgrants ⊢
    cases hgrants with
    | refuses => exact ⟨facts, List.Subset.refl _, h, by rintro reply ⟨⟩ ⟨⟩⟩
    | repeats hterm hvote =>
      refine ⟨facts, List.Subset.refl _, h, ?_⟩
      rintro reply ⟨⟩ -
      -- the ballot remembers the vote from the first time
      have hballot : (site.others.set site.id s.profile site.id).vote = some request.candidate := by
        rw [View.set_self]
        exact hvote
      have hgiven := h.possible.ballotsAgree.exists_vote hballot
      rw [View.set_self] at hgiven
      rw [hterm]
      exact hgiven
    | done disk hterm hvoted hlast hdisk =>
      obtain ⟨log, hround, heq⟩ := hrequest
      -- a vote on the ballot would be of this term, in which the server has not voted
      have hnone : s.durable.vote = none := by
        cases hvote : s.durable.vote with
        | none => rfl
        | some candidate =>
          have := h.durable.coherent.votedTerm_eq (by rw [hvote]; rfl)
          omega
      rw [hterm] at hround
      rw [heq] at hlast
      have hpossible := h.possible.set_grant hnone hround hlast
      refine ⟨_, List.subset_cons_self .., h.withDurable (List.subset_cons_self ..) ?_ hpossible, ?_⟩
      · exact h.durable.withBallot (List.subset_cons_self ..) ⟨s.term, some request.candidate⟩
          s.term hdisk (Nat.le_refl _) fun _ => rfl
      · rintro reply ⟨⟩ -
        exact ⟨s.log.entries, by rw [hterm]; exact List.mem_cons_self ..⟩
    | fails e disk hdisk => exact ⟨facts, List.Subset.refl _, h.withDisk hdisk, by rintro reply ⟨⟩⟩

theorem Sound.answerVote (h : s.Sound site facts) (clock : Clock) {request : VoteRequest}
    (hrequest : request.Sound facts) :
    ∃ facts', facts ⊆ facts' ∧ (s.answerVote clock request).state.Sound site facts' ∧
      ∀ reply, (s.answerVote clock request).result = .ok reply →
        reply.Sound facts' site.id request := by
  obtain ⟨facts', hsub, hstate, hreply⟩ := h.decideVote hrequest
  unfold Server.answerVote
  split
  · refine ⟨facts', hsub, ?_⟩
    generalize s.decideVote request = decided at hstate hreply ⊢
    obtain ⟨_ | reply, s'⟩ := decided
    · exact ⟨hstate, by rintro reply ⟨⟩⟩
    · refine ⟨?_, hreply⟩
      show (if reply.granted then _ else s').Sound site facts'
      split
      · exact hstate.withTimer ..
      · exact hstate
  · exact ⟨facts', hsub, hstate, hreply⟩
  · exact ⟨facts, List.Subset.refl _, h, by rintro reply ⟨⟩⟩

theorem Sound.requestVote (h : s.Sound site facts) (clock : Clock) {request : VoteRequest}
    (hrequest : request.Sound facts) :
    ∃ facts', facts ⊆ facts' ∧ (s.requestVote clock request).state.Sound site facts' ∧
      ∀ reply, (s.requestVote clock request).result = .ok reply →
        reply.Sound facts' site.id request := by
  have hstepped := h.stepDown clock request.term
  unfold Server.requestVote
  generalize s.stepDown clock request.term = stepped at hstepped ⊢
  obtain ⟨_ | newer, s'⟩ := stepped
  · exact ⟨facts, List.Subset.refl _, hstepped, by rintro reply ⟨⟩⟩
  · exact hstepped.answerVote clock hrequest

/-! ## Entries -/

/-- The log of a server and one that a leader has sent match. -/
theorem Sound.matching (h : s.Sound site facts) {request : AppendRequest} {log : List Entry}
    (hsent : Fact.sent request log ∈ facts) : Matching s.log.entries log := by
  intro count hcount hcount' hterm
  exact h.possible.take_eq_take h.valid (h.possible.logsValid.sent hsent) hcount hcount' hterm

/-- What is taken over from a leader is borne out by the chronicle. -/
theorem Sound.append (h : s.Sound site facts) {request : AppendRequest} {log : List Entry}
    (hsent : Fact.sent request log ∈ facts) (hterm : request.term = s.term)
    (hrole : s.role = .follower) :
    ∃ facts', facts ⊆ facts' ∧
      ({ s with durable := (s.durable.append request.entries request.prev).state } :
        Server σ μ).Sound site facts' ∧
      ∀ lastNew first,
        (s.durable.append request.entries request.prev).result = .ok (.accepted lastNew first) →
        lastNew = log.length ∧ Fact.ack site.id request.term log ∈ facts' ∧
          log <+: (s.durable.append request.entries request.prev).state.log.entries ∧
          (s.durable.append request.entries request.prev).state.term = s.term := by
  obtain ⟨-, before, rfl, hbefore, hprev⟩ := h.possible.sent_elected hsent
  have hidle : s.profile.standing = .idle := by
    unfold Server.profile
    rw [hrole]
    rfl
  obtain ⟨htakes, hcoherent⟩ :=
    DurableState.takesOver_append h.durable.coherent hbefore hprev (h.matching hsent)
  generalize s.durable.append request.entries request.prev = taken at htakes hcoherent ⊢
  cases htakes with
  | refuses => exact ⟨facts, List.Subset.refl _, h, by rintro lastNew first ⟨⟩⟩
  | has hhas =>
    have hpossible := h.possible.set_keep hsent hterm hidle hhas
    refine ⟨_, List.subset_cons_self .., h.mono (List.subset_cons_self ..) hpossible, ?_⟩
    rintro lastNew first ⟨⟩
    exact ⟨rfl, List.mem_cons_self .., hhas, rfl⟩
  | done log disk first hlacks hlog hdisk =>
    have hpossible := h.possible.set_replace hsent hterm hidle hlacks
    have hsub := List.subset_cons_self
      (Fact.ack site.id request.term (before ++ request.entries)) facts
    refine ⟨_, hsub, h.withDurable hsub ⟨h.durable.id, hcoherent, ?_⟩ ?_, ?_⟩
    · show Valid _ (contents disk).log
      rw [hdisk]
      exact (h.possible.logsValid.sent hsent).mono hsub
    · show Possible _ _ (site.others.set site.id ⟨s.durable.ballot, log.entries, _⟩)
      rw [hlog]
      exact hpossible
    · rintro lastNew first ⟨⟩
      exact ⟨rfl, List.mem_cons_self .., hlog ▸ List.prefix_rfl, rfl⟩
  | fails e log disk common hlacks hlog hlongest hdisk =>
    -- the log is cut back to what it shares with the leader's, the disk perhaps not
    have hpossible := h.possible.set_cut hsent hterm hidle hlacks hlongest
    refine ⟨facts, List.Subset.refl _,
      h.withDurable (List.Subset.refl _) ⟨h.durable.id, hcoherent, ?_⟩ ?_, by rintro lastNew first ⟨⟩⟩
    · show Valid facts (contents disk).log
      rcases hdisk with hdisk | hdisk <;> rw [hdisk]
      · exact h.durable.valid
      · exact h.possible.logsValid.of_prefix h.valid (List.take_prefix ..)
    · show Possible _ _ (site.others.set site.id ⟨s.durable.ballot, log.entries, _⟩)
      rw [hlog]
      exact hpossible

variable [StateMachine μ]

/-- A follower that takes entries of its term stays sound, and says so only if it has taken them. -/
theorem Sound.takeEntries (h : s.Sound site facts) (clock : Clock) {request : AppendRequest}
    (hrequest : request.Sound site facts) (hterm : request.term ≤ s.term)
    (hrole : s.role = .follower) :
    ∃ facts', facts ⊆ facts' ∧ (s.takeEntries clock request).state.Sound site facts' ∧
      (∀ reply, (s.takeEntries clock request).result = .ok reply →
        reply.Sound facts' site.id request) ∧
      (site.prompt → Hands s (s.takeEntries clock request).state) := by
  obtain ⟨log, hsent, hcommit⟩ := hrequest
  have hlength : request.lastIndex = log.length := by
    obtain ⟨-, before, rfl, hbefore, -⟩ := h.possible.sent_elected hsent
    rw [AppendRequest.lastIndex, List.length_append, hbefore]
  have happends := fun hle => h.append hsent (Nat.le_antisymm hterm hle) hrole
  have hheard : ∀ {facts' durable}, ({ s with durable } : Server σ μ).Sound site facts' →
      (s.heard clock request.leader durable).Sound site facts' := fun htaken =>
    (htaken.withTimer (clock.restart s.timer) s.timeouts).withLeader (some request.leader)
  have hquiet := fun durable => (quiet_heard s clock request.leader durable).hands
  have htakes := takesEntries_takeEntries clock request s
  generalize s.takeEntries clock request = answered at htakes ⊢
  cases htakes with
  | outdated =>
    exact ⟨facts, List.Subset.refl _, h, by rintro reply ⟨⟩ ⟨⟩, fun _ => (Quiet.refl s).hands⟩
  | fails hle happend =>
    obtain ⟨facts', hsub, htaken, -⟩ := happends hle
    rw [happend] at htaken
    exact ⟨facts', hsub, hheard htaken, by rintro reply ⟨⟩, fun _ => hquiet _⟩
  | refuses hle happend =>
    obtain ⟨facts', hsub, htaken, -⟩ := happends hle
    rw [happend] at htaken
    exact ⟨facts', hsub, hheard htaken, by rintro reply ⟨⟩ ⟨⟩, fun _ => hquiet _⟩
  | keeps hle happend =>
    obtain ⟨facts', hsub, htaken, hack⟩ := happends hle
    rw [happend] at htaken hack
    obtain ⟨rfl, hfact, -⟩ := hack _ _ rfl
    refine ⟨facts', hsub, hheard htaken, ?_, fun _ => hquiet _⟩
    rintro reply ⟨⟩ -
    exact ⟨log, hfact, Nat.le_of_eq hlength⟩
  | @commits durable lastNew first s' hle happend hcommits hs' =>
    obtain ⟨facts', hsub, htaken, hack⟩ := happends hle
    rw [happend] at htaken hack
    obtain ⟨rfl, hfact, hhas, hsame⟩ := hack _ _ rfl
    have hindex : min request.commit log.length ≤ log.length := Nat.min_le_right ..
    -- the leader speaks of its own log, of which the server has as much as was sent
    have htake : durable.log.entries.take (min request.commit log.length) <+:
        log.take request.commit := by
      obtain ⟨rest, hrest : log ++ rest = durable.log.entries⟩ := hhas
      rw [← hrest, List.take_append_of_le_length hindex]
      exact List.take_prefix_take_left (Nat.min_le_left ..)
    obtain ⟨facts'', hsub', hcommitted, hhands⟩ := (hheard htaken).commitTo hcommits
      fun hprompt => ⟨Nat.le_trans hindex hhas.length_le,
        (hcommit hprompt).mono hsub
          (Nat.le_of_eq ((Nat.le_antisymm hterm hle).trans hsame.symm)) htake⟩
    subst hs'
    refine ⟨facts'', List.Subset.trans hsub hsub', hcommitted, fun reply _ _ => ?_, fun hprompt => ?_⟩
    · exact ⟨log, hsub' hfact, Nat.le_of_eq hlength⟩
    · exact ⟨(hhands hprompt).applied_le, (hhands hprompt).machine⟩

omit [StateMachine μ] in
theorem Sound.concede (h : s.Sound site facts) (clock : Clock) (term : Nat) :
    (s.concede clock term).state.Sound site facts ∧
      ((s.concede clock term).result = .ok () →
        (s.concede clock term).state.role = .follower ∧
          term ≤ (s.concede clock term).state.term) := by
  have hadopts := s.durable.adopts_adoptTerm term
  have hstopped := h.stopRole
  simp only [Server.concede]
  generalize s.durable.adoptTerm term = adopted at hadopts ⊢
  cases hadopts with
  | stays hterm =>
    refine ⟨hstopped.becomeFollower clock, fun _ => ⟨becomeFollower_role .., ?_⟩⟩
    show term ≤ (Server.becomeFollower clock { s with role := s.role.stop }).durable.term
    rw [becomeFollower_durable]
    exact hterm
  | done disk hterm hdisk =>
    refine ⟨hstopped.asFollower clock (h.durable.withTerm hterm hdisk) (h.possible.set_adopt hterm),
      fun _ => ⟨becomeFollower_role .., ?_⟩⟩
    show term ≤ (Server.becomeFollower clock _).durable.term
    rw [becomeFollower_durable]
    exact Nat.le_refl term
  | fails e disk hterm hdisk => exact ⟨hstopped.withDisk hdisk, by rintro ⟨⟩⟩

theorem Sound.answerEntries (h : s.Sound site facts) (clock : Clock) {request : AppendRequest}
    (hrequest : request.Sound site facts) (hterm : request.term ≤ s.term) :
    ∃ facts', facts ⊆ facts' ∧ (s.answerEntries clock request).state.Sound site facts' ∧
      (∀ reply, (s.answerEntries clock request).result = .ok reply →
        reply.Sound facts' site.id request) ∧
      (site.prompt → Hands s (s.answerEntries clock request).state) := by
  unfold Server.answerEntries
  split
  · next hrole => exact h.takeEntries clock hrequest hterm hrole
  · split
    · exact ⟨facts, List.Subset.refl _, h, by rintro reply ⟨⟩ ⟨⟩, fun _ => (Quiet.refl s).hands⟩
    · obtain ⟨hconceded, hfollows⟩ := h.concede clock request.term
      have hquiet := quiet_concede clock request.term s
      generalize s.concede clock request.term = conceded at hconceded hfollows hquiet ⊢
      obtain ⟨_ | _, s'⟩ := conceded
      · exact ⟨facts, List.Subset.refl _, hconceded, by rintro reply ⟨⟩, fun _ => hquiet.hands⟩
      · obtain ⟨hrole, hterm'⟩ := hfollows rfl
        obtain ⟨facts', hsub, htaken, hreply, hhands⟩ :=
          hconceded.takeEntries clock hrequest hterm' hrole
        exact ⟨facts', hsub, htaken, hreply, fun hprompt => hquiet.trans_hands (hhands hprompt)⟩
  · exact ⟨facts, List.Subset.refl _, h, by rintro reply ⟨⟩, fun _ => (Quiet.refl s).hands⟩

theorem Sound.appendEntries (h : s.Sound site facts) (clock : Clock) {request : AppendRequest}
    (hrequest : request.Sound site facts) :
    ∃ facts', facts ⊆ facts' ∧ (s.appendEntries clock request).state.Sound site facts' ∧
      (∀ reply, (s.appendEntries clock request).result = .ok reply →
        reply.Sound facts' site.id request) ∧
      (site.prompt → Hands s (s.appendEntries clock request).state) := by
  have hstepped := h.stepDown clock request.term
  have hterm := fun newer => @term_le_of_stepDown σ μ _ clock request.term s newer
  have hquiet := quiet_stepDown clock request.term s
  unfold Server.appendEntries
  generalize s.stepDown clock request.term = stepped at hstepped hterm hquiet ⊢
  obtain ⟨_ | newer, s'⟩ := stepped
  · exact ⟨facts, List.Subset.refl _, hstepped, by rintro reply ⟨⟩, fun _ => hquiet.hands⟩
  · obtain ⟨facts', hsub, hanswered, hreply, hhands⟩ :=
      hstepped.answerEntries clock hrequest (hterm newer rfl)
    exact ⟨facts', hsub, hanswered, hreply, fun hprompt => hquiet.trans_hands (hhands hprompt)⟩

/-- A leader that is sent entries and stays in its term takes none of them. -/
theorem quiet_appendEntries (clock : Clock) (request : AppendRequest) {leader : Leader}
    (hrole : s.role = .leader leader)
    (hterm : (s.appendEntries clock request).state.term = s.term) :
    Quiet s (s.appendEntries clock request).state := by
  have hadopts := s.durable.adopts_adoptTerm request.term
  unfold Server.appendEntries Server.stepDown at hterm ⊢
  generalize s.durable.adoptTerm request.term = adopted at hadopts hterm ⊢
  cases hadopts with
  | stays hle =>
    simp only [Attempt.ok, Attempt.andThen, Server.answerEntries, hrole]
    exact ⟨rfl, rfl, rfl⟩
  | done disk hlt hdisk =>
    -- it would have followed in the newer term
    simp only [Attempt.ok, Attempt.andThen, Server.answerEntries, becomeFollower_role] at hterm
    rw [takeEntries_term] at hterm
    have hnew : request.term = s.durable.term := by simpa [Server.term] using hterm
    exact absurd hnew (Nat.ne_of_gt hlt)
  | fails e disk hlt hdisk => exact quiet_durable s _

/-! ## Commands -/

omit [LawfulStorage σ] [StateMachine μ] in
/-- What becomes of a command that a client submits. -/
inductive Submits (s : Server σ μ) (command : Bytes) :
    Attempt EngineError SubmitReply (Server σ μ) → Prop where
  /-- The server does not lead, or its disk fails. Its log stays as it is. -/
  | refuses (result : Except EngineError SubmitReply) (durable : DurableState σ)
      (hresult : ∀ index term, result ≠ .ok (.success index term))
      (hlog : durable.log = s.log) : Submits s command ⟨result, { s with durable }⟩
  | takes (leader : Leader) (durable : DurableState σ) (hrole : s.role = .leader leader)
      (hballot : durable.ballot = s.durable.ballot) (hterm : s.term = leader.term)
      (hlog : durable.log = s.log.push leader.term command) :
      Submits s command
        (.ok (.success (s.log.length + 1) leader.term)
          { s with durable, role := .leader { leader with awake := true } })

omit [StateMachine μ] in
theorem submits_submit (h : s.durable.Coherent) (command : Bytes) :
    s.Submits command (s.submit command) := by
  unfold Server.submit
  split
  · next leader hrole =>
    split
    · exact .refuses _ s.durable nofun rfl
    · have hputs := (DurableState.putsLast_appendCommand h leader.term command).1
      generalize s.durable.appendCommand leader.term command = appended at hputs ⊢
      cases hputs with
      | refuses _ => exact .refuses _ s.durable nofun rfl
      | done disk hterm _ => exact .takes leader _ hrole rfl hterm rfl
      | fails e disk unsyncedFrom _ => exact .refuses _ _ nofun rfl
  · exact .refuses _ s.durable nofun rfl

omit [StateMachine μ] in
/-- A command becomes an entry of the leader's term, at the end of its log. -/
theorem Sound.submit (h : s.Sound site facts) (command : Bytes) :
    ∃ facts', facts ⊆ facts' ∧ (s.submit command).state.Sound site facts' := by
  unfold Server.submit
  split
  · next leader hrole =>
    split
    · exact ⟨facts, List.Subset.refl _, h⟩
    · obtain ⟨hputs, hcoherent⟩ :=
        DurableState.putsLast_appendCommand h.durable.coherent leader.term command
      generalize s.durable.appendCommand leader.term command = appended at hputs hcoherent ⊢
      cases hputs with
      | refuses hterm => exact ⟨facts, List.Subset.refl _, h⟩
      | done disk hterm hdisk =>
        have hlead : s.profile.standing = .leading (s.log.next leader.term command).term := by
          unfold Server.profile
          rw [hrole]
          rfl
        have hpossible := h.possible.set_push hlead rfl
        generalize hfacts : Fact.ack site.id _ _ :: _ = facts' at hpossible
        have hsub : facts ⊆ facts' := by rw [← hfacts]; simp
        have hdurable : ({ s.durable with
            log := s.log.push leader.term command, disk, unsyncedFrom := none } :
            DurableState σ).Sound site facts' := by
          refine ⟨h.durable.id, hcoherent, ?_⟩
          show Valid facts' (contents disk).log
          rw [hdisk, ← hfacts]
          exact Or.inr (List.mem_cons_of_mem _ (List.mem_cons_self ..))
        have hleader : leader.Sound site facts s.peers := by
          have := h.role
          rwa [hrole] at this
        have hwoken : (Role.leader { leader with awake := true }).Sound site facts s.peers :=
          ⟨hleader.elected, hleader.known⟩
        have hpushed := h.withDurable hsub hdurable hpossible
        refine ⟨facts', hsub, hpushed.withRole (List.Subset.refl _) (hwoken.mono hsub) ?_⟩
        have hpossible := hpushed.possible
        unfold Server.profile at hpossible
        rwa [hrole] at hpossible
      | fails e disk unsyncedFrom hdisk =>
        refine ⟨facts, List.Subset.refl _,
          h.withDurable (List.Subset.refl _) ⟨h.durable.id, hcoherent, ?_⟩ h.possible⟩
        show Valid facts (contents disk).log
        -- the log is as before, and the disk can only have lost what goes beyond it
        rcases hdisk with hdisk | hdisk <;> rw [hdisk]
        · exact h.durable.valid
        · exact h.valid
  · exact ⟨facts, List.Subset.refl _, h⟩

end Server

end Quorum
