import Quorum.Proofs.Server.Requests

set_option autoImplicit false

/-! # Running for election

A candidate that opens a round asks each of its peers once, and counts each of them at most once. So
when the votes are more than half, they are those of a majority, the candidate's own among them. -/

namespace Quorum

open Chronicle

/-- A call goes to another member, and its request is sound. -/
structure Call.Sound (site : Site) (facts : List Fact) (call : Call) : Prop where
  target_mem : call.target ∈ site.ids
  target_ne : call.target ≠ site.id
  vote : ∀ request, call.request = .vote request →
    request.candidate = site.id ∧ request.Sound facts
  append : ∀ request, call.request = .append request → request.Sound site facts

theorem Call.Sound.mono {site : Site} {facts facts' : List Fact} {call : Call}
    (h : call.Sound site facts) (hsub : facts ⊆ facts') : call.Sound site facts' :=
  { h with
    vote := fun request hrequest =>
      ⟨(h.vote request hrequest).1, (h.vote request hrequest).2.mono hsub⟩
    append := fun request hrequest => (h.append request hrequest).mono hsub }

/-! ## Counting -/

variable {site : Site} {facts : List Fact}

/-- Whoever is asked for a vote in a term is the target of such a call. -/
theorem targets_of_asked (peers : List ServerId) (request : VoteRequest) :
    ((peers.map fun peer => (⟨peer, .vote request⟩ : Call)).filter (·.asksFor request.term)).map
      Call.target = peers := by
  induction peers with
  | nil => rfl
  | cons peer peers ih =>
    rw [List.map_cons, List.filter_cons_of_pos (by simp [Call.asksFor]), List.map_cons, ih]

/-- The votes that were counted make a majority together with the candidate's own, if they are more
    than half of the cluster. -/
theorem majority_of_won {config : Configuration} {peers voters : List ServerId} {tally : Tally}
    {term : Nat} (hfits : site.Fits facts config peers)
    (hcounted : Counted site facts peers term tally voters)
    (hwon : tally.isWon config.clusterSize) : Majority site.ids (site.id :: voters) := by
  obtain ⟨hnodup, hsubset, hle, -⟩ := hcounted
  constructor
  · refine List.nodup_cons.2 ⟨fun hself => ?_, (List.nodup_append.1 hnodup).1⟩
    exact ((hfits.mem_peers site.id).1 (hsubset hself)).2 rfl
  · intro id hid
    rcases List.mem_cons.1 hid with rfl | hid
    · exact hfits.self_mem
    · exact ((hfits.mem_peers id).1 (hsubset hid)).1
  · rw [← hfits.size, List.length_cons]
    simp only [Tally.isWon, decide_eq_true_eq] at hwon
    omega

theorem nodup_of_subperm {a b : List ServerId} (h : a.Subperm b) (hb : b.Nodup) : a.Nodup := by
  obtain ⟨part, hperm, hsublist⟩ := h
  exact hperm.nodup_iff.1 (hb.sublist hsublist)

/-- Counting a reply keeps the count true. -/
theorem Counted.count {peers voters : List ServerId} {term : Nat} {tally : Tally}
    {callee : ServerId} {result : Except CallError VoteReply} {pending : Nat → List ServerId}
    (h : Counted site facts peers term tally voters)
    (hcallee : (callee :: pending term).Subperm (site.pending term)) (hpeer : callee ∈ peers)
    (hresult : ∀ reply, result = .ok reply → reply.granted →
      ∃ log, Fact.vote callee term site.id log ∈ facts) :
    ∃ voters, Counted { site with pending } facts peers term (tally.count result) voters := by
  obtain ⟨hnodup, hsubset, hle, hvoted⟩ := h
  -- the callee was awaited until now, so it was not counted before
  have hnodup' : (callee :: (voters ++ pending term)).Nodup := by
    have happend := nodup_of_subperm ((List.Subperm.refl voters).append hcallee) hnodup
    exact List.perm_middle.nodup_iff.1 happend
  have hkeeps : Counted { site with pending } facts peers term tally voters :=
    ⟨(List.nodup_cons.1 hnodup').2, hsubset, hle, hvoted⟩
  cases result with
  | error e => exact ⟨voters, hkeeps.nodup, hsubset, hle, hvoted⟩
  | ok reply =>
    cases hgranted : reply.granted with
    | false =>
      refine ⟨voters, hkeeps.nodup, hsubset, ?_, hvoted⟩
      simpa [Tally.count, hgranted] using hle
    | true =>
      refine ⟨callee :: voters, hnodup', List.cons_subset.2 ⟨hpeer, hsubset⟩, ?_, ?_⟩
      · simpa [Tally.count, hgranted] using hle
      · intro voter hvoter
        rcases List.mem_cons.1 hvoter with rfl | hvoter
        · exact hresult reply rfl hgranted
        · exact hvoted voter hvoter

namespace Server

variable {σ μ : Type} [LawfulStorage σ] {s : Server σ μ}

/-! ## Rounds -/

/-- A candidate may go to any phase in which it does not count. -/
theorem Sound.enterPhase (h : s.Sound site facts) (candidate : Candidate)
    (phase : Candidate.Phase) (hphase : ∀ term tally, phase ≠ .counting term tally) :
    (s.enterPhase candidate phase).Sound site facts := by
  have hidle : (Role.candidate { candidate with phase }).standing = .idle := by
    cases phase with
    | counting term tally => exact absurd rfl (hphase term tally)
    | _ => rfl
  refine h.withRole (List.Subset.refl _) (fun term tally hcounting => ?_) ?_
  · exact absurd hcounting (hphase term tally)
  · rw [hidle]
    exact h.possible.set_rest

theorem Sound.candidateFailed (h : s.Sound site facts) (clock : Clock) (candidate : Candidate)
    (e : EngineError) : (s.candidateFailed clock candidate e).Sound site facts := by
  have hended := h.enterPhase candidate .ended nofun
  rcases s.candidateFailed_cases clock candidate e with heq | heq <;> rw [heq]
  · exact hended
  · exact hended.recover clock

/-- A candidate has not asked anybody for a vote in a term to come. -/
theorem Sound.pending_eq_nil (h : s.Sound site facts) {term : Nat} (hterm : s.term < term) :
    site.pending term = [] := by
  by_contra hpending
  obtain ⟨log, hround⟩ := h.fits.opened term hpending
  have hle := h.possible.ballotsAgree.round_le hround
  rw [View.set_self] at hle
  exact absurd hle (Nat.not_le_of_lt hterm)

/-- A round that is opened is new, and so are the calls for it. -/
theorem Sound.openRound (h : s.Sound site facts) (clock : Clock) (candidate : Candidate) :
    ∃ facts', facts ⊆ facts' ∧
      (s.openRound clock candidate).2.Sound (site.asked (s.openRound clock candidate).1) facts' ∧
      ∀ call ∈ (s.openRound clock candidate).1, call.Sound site facts' := by
  have hopens := s.durable.opens_openTerm
  simp only [Server.openRound]
  generalize s.durable.openTerm = opened at hopens ⊢
  cases hopens with
  | fails e disk hdisk =>
    refine ⟨facts, List.Subset.refl _, ?_, List.forall_mem_nil _⟩
    show Server.Sound (site.asked []) facts _
    rw [Site.asked_nil]
    exact (h.withDisk hdisk).candidateFailed clock candidate e
  | done disk hdisk =>
    have hstand := h.possible.set_stand
    generalize hfacts : Fact.vote site.id _ _ _ :: _ = facts' at hstand
    have hpossible : Possible site.ids facts' (site.others.set site.id
        ⟨⟨s.term + 1, some s.durable.id⟩, s.log.entries, .running (s.term + 1)⟩) := by
      rw [h.durable.id]
      exact hstand
    have hsub : facts ⊆ facts' := by rw [← hfacts]; simp
    have hround : Fact.round (s.term + 1) site.id s.log.entries ∈ facts' := by
      rw [← hfacts]
      exact List.mem_cons_of_mem _ (List.mem_cons_self ..)
    have hdurable := h.durable.withBallot hsub ⟨s.term + 1, some s.durable.id⟩ (s.term + 1) hdisk
      (Nat.le_refl _) fun _ => rfl
    simp only [Attempt.ok]
    have hfresh : site.pending (s.term + 1) = [] := h.pending_eq_nil (Nat.lt_succ_self _)
    have hrole : (Role.candidate { candidate with
        phase := .counting (s.term + 1) (.start s.peers.length), timedOut := false }).Sound
        site facts' s.peers := by
      rintro term tally ⟨⟩
      refine ⟨[], ?_, List.nil_subset _, Nat.le_refl _, List.forall_mem_nil _⟩
      rw [hfresh]
      exact List.nodup_nil
    have hopened := ((h.withState hsub hdurable hrole hpossible).withTimer
      (clock.restart s.timer) s.timeouts).withLeader none
    refine ⟨facts', hsub, hopened.asked ?_ ?_, ?_⟩
    · -- everybody is asked once
      rintro term tally ⟨⟩
      refine ⟨[], ?_, List.nil_subset _, Nat.le_refl _, List.forall_mem_nil _⟩
      simp only [Site.asked, hfresh, List.nil_append]
      have htargets := targets_of_asked s.peers (s.voteRequest (s.term + 1))
      exact Eq.mpr (congrArg List.Nodup htargets) h.fits.peers_nodup
    · intro call hcall term hasks
      obtain ⟨peer, -, rfl⟩ := List.mem_map.1 hcall
      obtain rfl : s.term + 1 = term := by simpa [Call.asksFor, Server.voteRequest] using hasks
      exact ⟨s.log.entries, hround⟩
    · intro call hcall
      obtain ⟨peer, hpeer, rfl⟩ := List.mem_map.1 hcall
      obtain ⟨hmem, hne⟩ := (h.fits.mem_peers peer).1 hpeer
      refine ⟨hmem, hne, ?_, by rintro request ⟨⟩⟩
      rintro request ⟨⟩
      refine ⟨h.fits.self, s.log.entries, ?_, Log.last_eq_endOf _⟩
      show Fact.round (s.term + 1) s.config.self s.log.entries ∈ facts'
      rw [h.fits.self]
      exact hround

/-! ## Elections -/

/-- Who has the votes of a majority was elected. -/
theorem Sound.becomeLeader (h : s.Sound site facts) {candidate : Candidate} {term : Nat}
    {tally : Tally} (hrole : s.role = .candidate candidate)
    (hphase : candidate.phase = .counting term tally) (hwon : tally.isWon s.config.clusterSize) :
    ∃ facts', facts ⊆ facts' ∧ (s.becomeLeader candidate term).Sound site facts' := by
  unfold Server.becomeLeader
  split
  · exact ⟨facts, List.Subset.refl _, h.enterPhase candidate .ended nofun⟩
  · have hrun : s.profile.standing = .running term := by
      unfold Server.profile
      rw [hrole]
      show candidate.phase.standing = _
      rw [hphase]
      rfl
    have hsound := h.role
    rw [hrole] at hsound
    obtain ⟨voters, hcounted⟩ := hsound term tally hphase
    -- it has also voted for itself
    have hvotes : ∀ voter ∈ site.id :: voters,
        ∃ log, Fact.vote voter term site.id log ∈ facts := by
      intro voter hvoter
      rcases List.mem_cons.1 hvoter with rfl | hvoter
      · have hrun' : (site.others.set site.id s.profile site.id).standing = .running term := by
          rw [View.set_self]
          exact hrun
        obtain ⟨hterm, hvote, -⟩ := h.possible.runs hrun'
        have hown := h.possible.ballotsAgree.exists_vote hvote
        rwa [hterm] at hown
      · exact hcounted.voted voter hvoter
    have hpossible := h.possible.set_win hrun (majority_of_won h.fits hcounted hwon) hvotes
    generalize hfacts : Fact.ack site.id term _ :: _ = facts' at hpossible
    have hsub : facts ⊆ facts' := by rw [← hfacts]; simp
    have hleader : (Role.leader (.fresh term s.isShutDown)).Sound site facts' s.peers := by
      refine ⟨⟨s.log.entries, ?_⟩, nofun⟩
      rw [← hfacts]
      exact List.mem_cons_of_mem _ (List.mem_cons_self ..)
    exact ⟨facts', hsub, ((h.withRole hsub hleader hpossible).withTimer s.timer.cancel
      s.timeouts).withLeader (some s.id)⟩

theorem Sound.abandonRound (h : s.Sound site facts) (clock : Clock) (candidate : Candidate)
    (term : Nat) : (s.abandonRound clock candidate term).Sound site facts := by
  have hstepped := (h.enterPhase candidate .ended nofun).stepDown clock term
  simp only [Server.abandonRound]
  split
  · exact hstepped.recover clock
  · exact hstepped

theorem Sound.judgeRound (h : s.Sound site facts) (clock : Clock) {candidate : Candidate}
    {term : Nat} {tally : Tally} (hrole : s.role = .candidate candidate)
    (hphase : candidate.phase = .counting term tally) :
    ∃ facts', facts ⊆ facts' ∧ (s.judgeRound clock candidate term tally).Sound site facts' := by
  unfold Server.judgeRound
  split
  · exact ⟨facts, List.Subset.refl _, h.abandonRound clock candidate _⟩
  · split
    · next hwon => exact h.becomeLeader hrole hphase hwon
    · split
      · exact ⟨facts, List.Subset.refl _, h.enterPhase candidate .waiting nofun⟩
      · exact ⟨facts, List.Subset.refl _, h⟩

/-- A turn of a candidate's loop. -/
theorem Sound.candidateTurn (h : s.Sound site facts) (clock : Clock) {candidate : Candidate}
    (hrole : s.role = .candidate candidate) :
    ∃ facts', facts ⊆ facts' ∧
      (s.candidateTurn clock candidate).2.Sound (site.asked (s.candidateTurn clock candidate).1)
        facts' ∧
      ∀ call ∈ (s.candidateTurn clock candidate).1, call.Sound site facts' := by
  unfold Server.candidateTurn
  split
  · exact ⟨facts, List.Subset.refl _, by simpa using h.enterPhase candidate .ended nofun, nofun⟩
  · split
    · exact h.openRound clock candidate
    · next term tally hphase =>
      obtain ⟨facts', hsub, hjudged⟩ := h.judgeRound clock hrole hphase
      exact ⟨facts', hsub, by simpa using hjudged, nofun⟩
    · split
      · exact h.openRound clock candidate
      · exact ⟨facts, List.Subset.refl _, by simpa using h, nofun⟩
    · exact ⟨facts, List.Subset.refl _, by simpa using h, nofun⟩

/-! ## Replies -/

/-- Others may change, as long as they leave the chronicle possible, and a candidate may stop to wait
    for some of those whom it has asked. -/
theorem Sound.resite (h : s.Sound site facts) {facts' : List Fact} (hsub : facts ⊆ facts')
    {others : View} {pending : Nat → List ServerId}
    (hpending : ∀ term, (pending term).Subperm (site.pending term))
    (hpossible : Possible site.ids facts' (others.set site.id s.profile)) :
    s.Sound { site with others, pending } facts' := by
  have hfits := h.fits.mono hsub
  have hrole := h.role.mono hsub
  refine ⟨⟨hfits.self, hfits.self_mem, hfits.nodup, hfits.size, hfits.peers_nodup,
    hfits.mem_peers, fun term hne => hfits.opened term fun hnil => ?_⟩, hpossible,
    ⟨h.durable.id, h.durable.coherent, h.durable.valid.mono hsub⟩, ?_, fun leader hleader => ?_,
    fun hprompt => ?_⟩
  · -- nobody is awaited who was not awaited before
    have hlength := (hpending term).length_le
    rw [hnil, List.length_nil] at hlength
    exact hne (List.eq_nil_of_length_eq_zero (Nat.le_zero.1 hlength))
  · cases hcase : s.role with
    | follower => trivial
    | candidate candidate =>
      rw [hcase] at hrole
      intro term tally hphase
      obtain ⟨voters, hcounted⟩ := hrole term tally hphase
      refine ⟨voters, ?_, hcounted.subset, hcounted.votes_le, hcounted.voted⟩
      exact nodup_of_subperm ((List.Subperm.refl voters).append (hpending term)) hcounted.nodup
    | leader leader =>
      rw [hcase] at hrole
      exact ⟨hrole.elected, hrole.known⟩
  · have hold := (h.retired leader hleader).mono hsub
    exact ⟨hold.elected, hold.known⟩
  · have hvolatile := (h.volatile hprompt).keeps hsub hpossible
    rw [View.set_self] at hvolatile
    exact ⟨hvolatile.applied, hvolatile.committed_le, hvolatile.hold⟩

theorem Sound.withPending (h : s.Sound site facts) {pending : Nat → List ServerId}
    (hpending : ∀ term, (pending term).Subperm (site.pending term)) :
    s.Sound { site with pending } facts :=
  h.resite (List.Subset.refl _) hpending h.possible

/-- A reply that is counted comes from somebody who was not counted before. -/
theorem Sound.countVote (h : s.Sound site facts) {term : Nat} {callee : ServerId}
    {result : Except CallError VoteReply} {pending : Nat → List ServerId}
    (hpending : ∀ other, (pending other).Subperm (site.pending other))
    (hcallee : (callee :: pending term).Subperm (site.pending term)) (hpeer : callee ∈ s.peers)
    (hresult : ∀ reply, result = .ok reply → reply.granted →
      ∃ log, Fact.vote callee term site.id log ∈ facts) :
    (s.countVote term result).Sound { site with pending } facts := by
  have hforgets := h.withPending hpending
  unfold Server.countVote
  split
  · next candidate hcandidate =>
    split
    · next round tally hphase =>
      split
      · next hround =>
        subst hround
        have hrole := h.role
        rw [hcandidate] at hrole
        obtain ⟨voters, hcounted⟩ := hrole round tally hphase
        have hstanding : ∀ tally', (Role.candidate { candidate with
            phase := .counting round tally' }).standing = s.role.standing := by
          intro tally'
          rw [hcandidate]
          show _ = candidate.phase.standing
          rw [hphase]
          rfl
        refine hforgets.withRole (List.Subset.refl _) ?_ ?_
        · rintro term tally ⟨⟩
          exact hcounted.count hcallee hpeer hresult
        · rw [hstanding]
          exact h.possible
      · exact hforgets
    · exact hforgets
  · exact hforgets

end Server

end Quorum
