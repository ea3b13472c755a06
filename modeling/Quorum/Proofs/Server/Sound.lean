import Quorum.Proofs.Chronicle.Member
import Quorum.Proofs.State.Durable
import Quorum.Proofs.State.Volatile
import Quorum.Server.Step

set_option autoImplicit false

/-! # What a server knows is true

A server acts on what it has in memory: its ballot and its log, the votes that it has counted, what
it believes about the logs of its peers. It is *sound* if the chronicle of the run bears all of this
out. The chronicle only grows, so what is borne out once is borne out for ever, and it is enough to
look at one server and one step at a time. -/

namespace Quorum

open Chronicle

/-! ## Profiles -/

/-- What a candidate in this phase stands for. -/
def Candidate.Phase.standing : Candidate.Phase → Standing
  | .counting term _ => .running term
  | _ => .idle

/-- What a server in this role stands for. -/
def Role.standing : Role → Standing
  | .follower => .idle
  | .candidate state => state.phase.standing
  | .leader state => .leading state.term

@[simp]
theorem Role.standing_leader (leader : Leader) :
    (Role.leader leader).standing = .leading leader.term := rfl

@[simp]
theorem Role.standing_stop (role : Role) : role.stop.standing = role.standing := by
  cases role <;> rfl

/-- What of a server the safety of the cluster depends on. -/
def Server.profile {σ μ : Type} (s : Server σ μ) : Profile :=
  ⟨s.durable.ballot, s.log.entries, s.role.standing⟩

/-! ## Places -/

/-- The cluster as one of its servers finds it. -/
structure Site where
  ids : List ServerId
  /-- The server. -/
  id : ServerId
  /-- The profiles of the others. -/
  others : View
  /-- Whom the server has asked for votes in a term without having heard the outcome. -/
  pending : Nat → List ServerId
  /-- Loops that were told to end do nothing else any more. -/
  prompt : Prop

/-- The call asks for a vote in the term. -/
def Call.asksFor (term : Nat) (call : Call) : Bool :=
  match call.request with
  | .vote request => request.term == term
  | .append _ => false

/-- The site after the server has made calls. -/
def Site.asked (site : Site) (calls : List Call) : Site :=
  { site with
    pending := fun term => site.pending term ++ (calls.filter (·.asksFor term)).map Call.target }

/-- Calls that ask for no votes change nothing. -/
theorem Site.asked_eq (site : Site) {calls : List Call}
    (h : ∀ call ∈ calls, ∀ term, call.asksFor term = false) : site.asked calls = site := by
  have hnone : ∀ term, calls.filter (·.asksFor term) = [] := by
    intro term
    refine List.filter_eq_nil_iff.2 fun call hcall => ?_
    rw [h call hcall term]
    exact Bool.false_ne_true
  unfold Site.asked
  simp only [hnone, List.map_nil, List.append_nil]

@[simp]
theorem Site.asked_nil (site : Site) : site.asked [] = site := site.asked_eq nofun

/-- The configuration and the peers of a server are those of a member of the cluster, and it has
    asked for votes only in rounds that it has opened. -/
structure Site.Fits (site : Site) (facts : List Fact) (config : Configuration)
    (peers : List ServerId) : Prop where
  self : config.self = site.id
  self_mem : site.id ∈ site.ids
  nodup : site.ids.Nodup
  size : config.clusterSize = site.ids.length
  peers_nodup : peers.Nodup
  mem_peers : ∀ peer, peer ∈ peers ↔ peer ∈ site.ids ∧ peer ≠ site.id
  opened : ∀ term, site.pending term ≠ [] → ∃ log, Fact.round term site.id log ∈ facts

/-! ## Loops -/

/-- The part of a log is chosen, by a leader of the term or an earlier one. -/
def Settled (ids : List ServerId) (facts : List Fact) (term : Nat) (part : List Entry) : Prop :=
  part = [] ∨ ∃ chosen, Chosen ids facts chosen ∧ lastTerm chosen ≤ term ∧ part <+: chosen

/-- What a leader believes about its peers is true: they have acknowledged a log that reaches as far
    as it says. -/
structure KnownPeers (facts : List Fact) (term : Nat) (peers : List ServerId)
    (known : List (ServerId × Progress)) : Prop where
  peers : known.map Prod.fst = peers
  acked : ∀ peer ∈ known, peer.2.matched ≠ 0 →
    ∃ log, Fact.ack peer.1 term log ∈ facts ∧ peer.2.matched ≤ log.length

/-- A leader was elected, and what it believes about its peers is true. -/
structure Leader.Sound (site : Site) (facts : List Fact) (peers : List ServerId)
    (leader : Leader) : Prop where
  elected : ∃ log, Fact.election leader.term site.id log ∈ facts
  known : ∀ known nextBeat, leader.phase = .running known nextBeat →
    KnownPeers facts leader.term peers known

/-- Whoever a candidate has counted has voted for it, and is not to be heard again. -/
structure Counted (site : Site) (facts : List Fact) (peers : List ServerId) (term : Nat)
    (tally : Tally) (voters : List ServerId) : Prop where
  nodup : (voters ++ site.pending term).Nodup
  subset : voters ⊆ peers
  votes_le : tally.votes ≤ voters.length
  voted : ∀ voter ∈ voters, ∃ log, Fact.vote voter term site.id log ∈ facts

/-- What the loop of a role relies on is true. -/
def Role.Sound (site : Site) (facts : List Fact) (peers : List ServerId) : Role → Prop
  | .follower => True
  | .candidate state => ∀ term tally, state.phase = .counting term tally →
      ∃ voters, Counted site facts peers term tally voters
  | .leader state => state.Sound site facts peers

/-! ## Commits -/

/-- What is committed is known to the chronicle, is in the log and has been applied. -/
structure VolatileState.Sound (site : Site) (facts : List Fact) (log : List Entry)
    (v : VolatileState) : Prop where
  applied : v.applied = v.committed
  committed_le : v.committed ≤ log.length
  hold : v.committed ≠ 0 → Fact.hold site.id (log.take v.committed) ∈ facts

/-! ## Servers -/

/-- Memory and disk agree, and what is on the disk was made by leaders. -/
structure DurableState.Sound {σ : Type} [LawfulStorage σ] (site : Site) (facts : List Fact)
    (s : DurableState σ) : Prop where
  id : s.id = site.id
  coherent : s.Coherent
  valid : Valid facts (contents s.disk).log

/-- All that a server relies on is true. -/
structure Server.Sound {σ μ : Type} [LawfulStorage σ] (site : Site) (facts : List Fact)
    (s : Server σ μ) : Prop where
  fits : site.Fits facts s.config s.peers
  possible : Possible site.ids facts (site.others.set site.id s.profile)
  durable : s.durable.Sound site facts
  role : s.role.Sound site facts s.peers
  retired : ∀ leader, .leader leader ∈ s.retired → leader.Sound site facts s.peers
  volatile : site.prompt → s.volatile.Sound site facts s.log.entries

/-! ## The chronicle grows -/

variable {site : Site} {facts facts' : List Fact} {peers : List ServerId}

theorem Site.Fits.mono {config : Configuration} (h : site.Fits facts config peers)
    (hsub : facts ⊆ facts') : site.Fits facts' config peers := by
  refine { h with opened := fun term hpending => ?_ }
  obtain ⟨log, hround⟩ := h.opened term hpending
  exact ⟨log, hsub hround⟩

theorem Settled.mono {ids : List ServerId} {term term' : Nat} {part part' : List Entry}
    (h : Settled ids facts term part) (hsub : facts ⊆ facts') (hterm : term ≤ term')
    (hpart : part' <+: part) : Settled ids facts' term' part' := by
  rcases h with rfl | ⟨chosen, hchosen, hle, hbegins⟩
  · exact Or.inl (List.prefix_nil.1 hpart)
  · exact Or.inr ⟨chosen, hchosen.mono hsub, Nat.le_trans hle hterm, hpart.trans hbegins⟩

theorem KnownPeers.mono {term : Nat} {known : List (ServerId × Progress)}
    (h : KnownPeers facts term peers known) (hsub : facts ⊆ facts') :
    KnownPeers facts' term peers known := by
  refine ⟨h.peers, fun peer hpeer hmatched => ?_⟩
  obtain ⟨log, hack, hle⟩ := h.acked peer hpeer hmatched
  exact ⟨log, hsub hack, hle⟩

theorem Leader.Sound.mono {leader : Leader} (h : leader.Sound site facts peers)
    (hsub : facts ⊆ facts') : leader.Sound site facts' peers := by
  obtain ⟨log, he⟩ := h.elected
  exact ⟨⟨log, hsub he⟩, fun known nextBeat hphase => (h.known known nextBeat hphase).mono hsub⟩

theorem Counted.mono {term : Nat} {tally : Tally} {voters : List ServerId}
    (h : Counted site facts peers term tally voters) (hsub : facts ⊆ facts') :
    Counted site facts' peers term tally voters := by
  refine ⟨h.nodup, h.subset, h.votes_le, fun voter hvoter => ?_⟩
  obtain ⟨log, hvote⟩ := h.voted voter hvoter
  exact ⟨log, hsub hvote⟩

theorem Role.Sound.mono {role : Role} (h : role.Sound site facts peers) (hsub : facts ⊆ facts') :
    role.Sound site facts' peers := by
  cases role with
  | follower => exact h
  | candidate candidate =>
    intro term tally hphase
    obtain ⟨voters, hcounted⟩ := h term tally hphase
    exact ⟨voters, hcounted.mono hsub⟩
  | leader leader => exact Leader.Sound.mono h hsub

/-- A loop that is told to end knows what it knew. -/
theorem Role.Sound.stop {role : Role} (h : role.Sound site facts peers) :
    role.stop.Sound site facts peers := by
  cases role with
  | follower => exact h
  | candidate candidate => exact h
  | leader leader => exact ⟨h.elected, h.known⟩

theorem DurableState.Sound.mono {σ : Type} [LawfulStorage σ] {s : DurableState σ}
    (h : s.Sound site facts) (hsub : facts ⊆ facts') : s.Sound site facts' :=
  ⟨h.id, h.coherent, h.valid.mono hsub⟩

/-- A ballot that was saved does not touch the log. -/
theorem DurableState.Sound.withBallot {σ : Type} [LawfulStorage σ] {s : DurableState σ}
    (h : s.Sound site facts) (hsub : facts ⊆ facts') (ballot : Ballot) (votedTerm : Nat) {disk : σ}
    (hdisk : contents disk = (contents s.disk).saveBallot ballot)
    (hvoted_le : votedTerm ≤ ballot.term) (hvoted : ballot.vote.isSome → votedTerm = ballot.term) :
    ({ s with ballot, votedTerm, disk } : DurableState σ).Sound site facts' := by
  refine ⟨h.id, h.coherent.withBallot ballot votedTerm hdisk hvoted_le hvoted, ?_⟩
  show Valid facts' (contents disk).log
  rw [hdisk]
  exact h.valid.mono hsub

/-- A term that was adopted comes without a vote. -/
theorem DurableState.Sound.withTerm {σ : Type} [LawfulStorage σ] {s : DurableState σ}
    (h : s.Sound site facts) {term : Nat} {disk : σ} (hterm : s.term < term)
    (hdisk : contents disk = (contents s.disk).saveBallot ⟨term, none⟩) :
    ({ s with ballot := ⟨term, none⟩, disk } : DurableState σ).Sound site facts :=
  h.withBallot (List.Subset.refl _) ⟨term, none⟩ s.votedTerm hdisk
    (Nat.le_trans h.coherent.votedTerm_le (Nat.le_of_lt hterm)) nofun

/-- What is known to be committed stays in the log, whatever becomes of the log. -/
theorem VolatileState.Sound.keeps {log : List Entry} {view : View} {v : VolatileState}
    (h : v.Sound site facts log) (hsub : facts ⊆ facts')
    (hpossible : Possible site.ids facts' view) : v.Sound site facts' (view site.id).log := by
  rcases Nat.eq_zero_or_pos v.committed with hzero | hpos
  · exact ⟨h.applied, by omega, fun hne => absurd hzero hne⟩
  · have hhold := hsub (h.hold (by omega))
    have hheld := (hpossible.held hhold).1
    have hlength := List.length_take_of_le h.committed_le
    have htake := List.prefix_iff_eq_take.1 hheld
    rw [hlength] at htake
    refine ⟨h.applied, ?_, fun _ => htake ▸ hhold⟩
    rw [← hlength]
    exact hheld.length_le

theorem VolatileState.Sound.mono {log : List Entry} {profile : Profile} {v : VolatileState}
    (h : v.Sound site facts log) (hsub : facts ⊆ facts')
    (hpossible : Possible site.ids facts' (site.others.set site.id profile)) :
    v.Sound site facts' profile.log := by
  have hkeeps := h.keeps hsub hpossible
  rwa [View.set_self] at hkeeps

/-- Applying does not fail as long as the log reaches as far as the committed index. -/
theorem Server.applyEntries_eq {σ μ : Type} [StateMachine μ] (s : Server σ μ)
    (happlied : s.volatile.applied ≤ s.volatile.committed)
    (hlog : s.volatile.committed ≤ s.log.length) :
    s.applyEntries =
      .ok (s.volatile.committed - s.volatile.applied)
        { s with
          volatile := { s.volatile with applied := s.volatile.committed }
          machine :=
            feed s.machine ((s.log.entries.take s.volatile.committed).drop s.volatile.applied) } := by
  rw [Server.applyEntries, applyCommitted_of_le_length _ _ _ happlied hlog]
  rfl

/-- What has newly been applied is what the machine was handed, entry by entry. -/
structure Server.Hands {σ μ : Type} [StateMachine μ] (s s' : Server σ μ) : Prop where
  applied_le : s.volatile.applied ≤ s'.volatile.applied
  machine : s'.machine =
    feed s.machine ((s'.log.entries.take s'.volatile.applied).drop s.volatile.applied)

namespace Server.Sound

variable {σ μ : Type} [LawfulStorage σ] {s : Server σ μ}

theorem mono (h : s.Sound site facts) (hsub : facts ⊆ facts')
    (hpossible : Possible site.ids facts' (site.others.set site.id s.profile)) :
    s.Sound site facts' :=
  { fits := h.fits.mono hsub
    possible := hpossible
    durable := h.durable.mono hsub
    role := h.role.mono hsub
    retired := fun leader hleader => (h.retired leader hleader).mono hsub
    volatile := fun hprompt => (h.volatile hprompt).mono hsub hpossible }

/-- Durable state and role may change into whatever the chronicle bears out. -/
theorem withState (h : s.Sound site facts) (hsub : facts ⊆ facts') {durable : DurableState σ}
    {role : Role} (hdurable : durable.Sound site facts') (hrole : role.Sound site facts' s.peers)
    (hpossible : Possible site.ids facts'
      (site.others.set site.id ⟨durable.ballot, durable.log.entries, role.standing⟩)) :
    ({ s with durable, role } : Server σ μ).Sound site facts' :=
  { fits := h.fits.mono hsub
    possible := hpossible
    durable := hdurable
    role := hrole
    retired := fun leader hleader => (h.retired leader hleader).mono hsub
    volatile := fun hprompt => (h.volatile hprompt).mono hsub hpossible }

theorem withDurable (h : s.Sound site facts) (hsub : facts ⊆ facts') {durable : DurableState σ}
    (hdurable : durable.Sound site facts')
    (hpossible : Possible site.ids facts'
      (site.others.set site.id ⟨durable.ballot, durable.log.entries, s.role.standing⟩)) :
    ({ s with durable } : Server σ μ).Sound site facts' :=
  h.withState hsub hdurable (h.role.mono hsub) hpossible

theorem withRole (h : s.Sound site facts) (hsub : facts ⊆ facts') {role : Role}
    (hrole : role.Sound site facts' s.peers)
    (hpossible : Possible site.ids facts'
      (site.others.set site.id ⟨s.durable.ballot, s.log.entries, role.standing⟩)) :
    ({ s with role } : Server σ μ).Sound site facts' :=
  h.withState hsub (h.durable.mono hsub) hrole hpossible

/-- A change that the disk refuses changes nothing that counts. -/
theorem withDisk (h : s.Sound site facts) {disk : σ}
    (hdisk : contents disk = contents s.durable.disk) :
    ({ s with durable := { s.durable with disk } } : Server σ μ).Sound site facts := by
  refine h.withDurable (List.Subset.refl _) ⟨h.durable.id, h.durable.coherent.withDisk hdisk, ?_⟩
    h.possible
  show Valid facts (contents disk).log
  rw [hdisk]
  exact h.durable.valid

/-- The server has made calls, and waits for their outcome. -/
theorem asked (h : s.Sound site facts) {calls : List Call}
    (hrole : s.role.Sound (site.asked calls) facts s.peers)
    (hopened : ∀ call ∈ calls, ∀ term, call.asksFor term →
      ∃ log, Fact.round term site.id log ∈ facts) : s.Sound (site.asked calls) facts := by
  refine ⟨{ h.fits with opened := fun term hpending => ?_ }, h.possible, ⟨h.durable.id,
    h.durable.coherent, h.durable.valid⟩, hrole, fun leader hleader => ?_, fun hprompt => ?_⟩
  · show ∃ log, Fact.round term site.id log ∈ facts
    by_cases hold : site.pending term = []
    · obtain ⟨target, htarget⟩ := List.exists_mem_of_ne_nil _ hpending
      simp only [Site.asked, hold, List.nil_append, List.mem_map, List.mem_filter] at htarget
      obtain ⟨call, ⟨hcall, hasks⟩, -⟩ := htarget
      exact hopened call hcall term hasks
    · exact h.fits.opened term hold
  · exact ⟨(h.retired leader hleader).elected, (h.retired leader hleader).known⟩
  · exact ⟨(h.volatile hprompt).applied, (h.volatile hprompt).committed_le,
      (h.volatile hprompt).hold⟩

/-- Nothing depends on the election timer. -/
theorem withTimer (h : s.Sound site facts) (timer : ElectionTimer) (timeouts : List Timeout) :
    ({ s with timer, timeouts } : Server σ μ).Sound site facts :=
  ⟨h.fits, h.possible, h.durable, h.role, h.retired, h.volatile⟩

/-- Nothing depends on who is known to lead. -/
theorem withLeader (h : s.Sound site facts) (leader : Option ServerId) :
    ({ s with volatile := { s.volatile with leader } } : Server σ μ).Sound site facts :=
  ⟨h.fits, h.possible, h.durable, h.role, h.retired, fun hprompt =>
    ⟨(h.volatile hprompt).applied, (h.volatile hprompt).committed_le, (h.volatile hprompt).hold⟩⟩

/-- The log of a sound server was made by leaders. -/
theorem valid (h : s.Sound site facts) : Valid facts s.log.entries := by
  have hvalid := h.possible.logsValid.member site.id
  rwa [View.set_self] at hvalid

/-- Who is a leader was elected. -/
theorem leads_of_leader (h : s.Sound site facts) {leader : Leader}
    (hrole : s.role = .leader leader) : Leads facts s.profile site.id leader.term := by
  have hstanding : (site.others.set site.id s.profile site.id).standing = .leading leader.term := by
    rw [View.set_self]
    unfold Server.profile
    rw [hrole]
    rfl
  have hleads := h.possible.leads hstanding
  rwa [View.set_self] at hleads

/-- A leader is in the term that it leads. -/
theorem term_eq_of_leader (h : s.Sound site facts) {leader : Leader}
    (hrole : s.role = .leader leader) : s.term = leader.term := (h.leads_of_leader hrole).term_eq

/-! ## Committing -/

/-- What a sound server has committed is settled. -/
theorem settled (h : s.Sound site facts) (hprompt : site.prompt) :
    Settled site.ids facts s.term (s.log.entries.take s.volatile.committed) := by
  rcases Nat.eq_zero_or_pos s.volatile.committed with hzero | hpos
  · rw [hzero]
    exact Or.inl rfl
  · obtain ⟨-, chosen, hchosen, hle, hpart⟩ :=
      h.possible.held ((h.volatile hprompt).hold (by omega))
    rw [View.set_self] at hle
    exact Or.inr ⟨chosen, hchosen, hle, hpart⟩

variable [StateMachine μ]

/-- A sound server may commit what is settled. If loops that were told to end could still send, it
    might have to commit other things as well; then its indices are not vouched for. -/
theorem commitTo (h : s.Sound site facts) {index : Nat} (hlt : s.volatile.committed < index)
    (hsettled : site.prompt → index ≤ s.log.length ∧
      Settled site.ids facts s.term (s.log.entries.take index)) :
    ∃ facts', facts ⊆ facts' ∧
      (({ s with volatile := { s.volatile with committed := index } } :
        Server σ μ).applyEntries).state.Sound site facts' ∧
      (site.prompt → Hands s
        (({ s with volatile := { s.volatile with committed := index } } :
          Server σ μ).applyEntries).state) := by
  by_cases hprompt : site.prompt
  · obtain ⟨hle, hsettled⟩ := hsettled hprompt
    have hne : s.log.entries.take index ≠ [] := by
      refine List.ne_nil_of_length_pos ?_
      rw [List.length_take_of_le hle]
      omega
    obtain ⟨chosen, hchosen, hterm, hpart⟩ := hsettled.resolve_left hne
    have hpossible := h.possible.set_note hchosen hterm hpart (List.take_prefix ..)
    have hsub := List.subset_cons_self (Fact.hold site.id (s.log.entries.take index)) facts
    have hsound := h.mono hsub hpossible
    have happlied := (h.volatile hprompt).applied
    refine ⟨_, hsub, ?_⟩
    have hindex : s.volatile.applied ≤ index := by omega
    rw [applyEntries_eq _ hindex hle]
    exact ⟨⟨hsound.fits, hsound.possible, hsound.durable, hsound.role, hsound.retired,
      fun _ => ⟨rfl, hle, fun _ => List.mem_cons_self ..⟩⟩, fun _ => ⟨hindex, rfl⟩⟩
  · exact ⟨facts, List.Subset.refl _, ⟨h.fits, h.possible, h.durable, h.role, h.retired,
      fun hyes => absurd hyes hprompt⟩, fun hyes => absurd hyes hprompt⟩

end Server.Sound

end Quorum
