import Quorum.Proofs.Server.Commits
import Quorum.Proofs.Server.Election

set_option autoImplicit false

/-! # Leading

Whatever branch a leader's loop takes, it sends only what is in its server's log, in the name of the
term in which it was elected, and what it learns from the outcomes is true. This holds also for a
loop that was told to end: it sends out of a log that may not be its own any more, but still one
that leaders have made. What it says about the committed index is another matter. -/

namespace Quorum

open Chronicle

variable {site : Site} {facts facts' : List Fact}

/-- What a report says about a peer is true. -/
def AppendReport.Sound (facts : List Fact) (term : Nat) (report : AppendReport) : Prop :=
  ∀ reply, report.result = .ok reply → reply.success →
    ∃ log, Fact.ack report.peer term log ∈ facts ∧ report.lastIndex ≤ log.length

/-- Entries were sent, and nobody was asked for a vote. -/
def SendsEntries (site : Site) (facts : List Fact) (calls : List Call) : Prop :=
  ∀ call ∈ calls, call.Sound site facts ∧ ∀ term, call.asksFor term = false

/-- An outcome that a loop looks at is that of a request of its own term. -/
def Branch.Sound (facts : List Fact) (term : Nat) : Branch → Prop
  | .outcome report => report.Sound facts term
  | _ => True

theorem SendsEntries.nil (site : Site) (facts : List Fact) : SendsEntries site facts [] := nofun

theorem SendsEntries.mono {calls : List Call} (h : SendsEntries site facts calls)
    (hsub : facts ⊆ facts') : SendsEntries site facts' calls :=
  fun call hcall => ⟨(h call hcall).1.mono hsub, (h call hcall).2⟩

theorem SendsEntries.asked_eq {calls : List Call} (h : SendsEntries site facts calls) :
    site.asked calls = site := site.asked_eq fun call hcall => (h call hcall).2

theorem sendsTo {config : Configuration} {peers : List ServerId}
    (hfits : site.Fits facts config peers) {peer : ServerId} (hpeer : peer ∈ peers)
    {request : AppendRequest} (hrequest : request.Sound site facts') :
    Call.Sound site facts' ⟨peer, .append request⟩ ∧
      ∀ term, (⟨peer, .append request⟩ : Call).asksFor term = false := by
  obtain ⟨hmem, hne⟩ := (hfits.mem_peers peer).1 hpeer
  refine ⟨⟨hmem, hne, nofun, ?_⟩, fun term => rfl⟩
  rintro _ ⟨⟩
  exact hrequest

/-! ## What is known of the peers -/

/-- Only the indices that peers are known to have count. -/
theorem KnownPeers.of_matched {term : Nat} {peers : List ServerId}
    {known known' : List (ServerId × Progress)} (h : KnownPeers facts term peers known)
    (hsame : known'.map (fun peer => (peer.1, peer.2.matched)) =
      known.map fun peer => (peer.1, peer.2.matched)) : KnownPeers facts term peers known' := by
  constructor
  · have hkeys := congrArg (List.map Prod.fst) hsame
    rw [List.map_map, List.map_map] at hkeys
    exact Eq.trans hkeys h.peers
  · intro peer hpeer hmatched
    have hmem : (peer.1, peer.2.matched) ∈ known'.map fun peer => (peer.1, peer.2.matched) :=
      List.mem_map_of_mem hpeer
    rw [hsame] at hmem
    obtain ⟨old, hold, heq⟩ := List.mem_map.1 hmem
    obtain ⟨hid, hindex⟩ := Prod.mk.inj heq
    rw [← hindex] at hmatched
    rw [← hid, ← hindex]
    exact h.acked old hold hmatched

/-- What is learned of one peer is put in the place of what was known. -/
theorem KnownPeers.setProgress {term : Nat} {peers : List ServerId}
    {known : List (ServerId × Progress)} (h : KnownPeers facts term peers known) {peer : ServerId}
    {progress : Progress} (hprogress : progress.matched ≠ 0 →
      ∃ log, Fact.ack peer term log ∈ facts ∧ progress.matched ≤ log.length) :
    KnownPeers facts term peers (Server.setProgress known peer progress) := by
  constructor
  · rw [← h.peers, Server.setProgress, List.map_map]
    refine List.map_congr_left fun old _ => ?_
    show (if old.1 = peer then (old.1, progress) else (old.1, old.2)).1 = old.1
    split <;> rfl
  · intro other hother hmatched
    obtain ⟨⟨id, old⟩, hold, rfl⟩ := List.mem_map.1 hother
    by_cases hpeer : id = peer
    · simp only [if_pos hpeer] at hmatched ⊢
      rw [hpeer]
      exact hprogress hmatched
    · simp only [if_neg hpeer] at hmatched ⊢
      exact h.acked (id, old) hold hmatched

theorem KnownPeers.of_lookup {term : Nat} {peers : List ServerId}
    {known : List (ServerId × Progress)} (h : KnownPeers facts term peers known) {peer : ServerId}
    {progress : Progress} (hlookup : known.lookup peer = some progress)
    (hmatched : progress.matched ≠ 0) :
    ∃ log, Fact.ack peer term log ∈ facts ∧ progress.matched ≤ log.length := by
  obtain ⟨before, rest, rfl, -⟩ := List.lookup_eq_some_iff.1 hlookup
  exact h.acked (peer, progress) (by simp) hmatched

theorem KnownPeers.mem_of_lookup {term : Nat} {peers : List ServerId}
    {known : List (ServerId × Progress)} (h : KnownPeers facts term peers known) {peer : ServerId}
    {progress : Progress} (hlookup : known.lookup peer = some progress) : peer ∈ peers := by
  obtain ⟨before, rest, rfl, -⟩ := List.lookup_eq_some_iff.1 hlookup
  rw [← h.peers]
  simp

namespace Server

variable {σ μ : Type} [LawfulStorage σ] {s : Server σ μ}

/-! ## Sending -/

/-- If loops that were told to end send nothing, then whoever sends is in the term that it leads. -/
def MaySend (site : Site) (s : Server σ μ) (term : Nat) (calls : List Call) : Prop :=
  site.prompt → calls = [] ∨ s.term ≤ term

omit [LawfulStorage σ] in
/-- A request carries the end of a part of the log. -/
theorem cutFrom_of_entriesRequest {term next : Nat} {peer : ServerId} {request : AppendRequest}
    (h : s.entriesRequest term peer next = .ok request) :
    ∃ log, log <+: s.log.entries ∧ request.CutFrom log ∧ request.term = term ∧
      request.leader = s.id ∧ request.commit = s.volatile.committed := by
  unfold Server.entriesRequest at h
  cases hprev : s.log.termAt (next - 1) with
  | none => simp [hprev] at h
  | some prevTerm =>
    simp only [hprev, Except.ok.injEq] at h
    subst h
    obtain ⟨hle, hlast⟩ := (s.log.termAt_eq_some_iff ..).1 hprev
    refine ⟨s.log.entries.take (next - 1 + batchLimit), List.take_prefix .., ?_, rfl, rfl, rfl⟩
    exact ⟨s.log.entries.take (next - 1), List.take_add, List.length_take_of_le hle, hlast⟩

/-- A loop may send whatever its server has in its log. -/
theorem Sound.entriesRequest (h : s.Sound site facts) {term next : Nat} {peer : ServerId}
    {elected : List Entry} (he : Fact.election term site.id elected ∈ facts)
    (hpresent : site.prompt → s.term ≤ term) {request : AppendRequest}
    (hrequest : s.entriesRequest term peer next = .ok request) :
    ∃ facts', facts ⊆ facts' ∧ s.Sound site facts' ∧ request.Sound site facts' := by
  obtain ⟨log, hlog, hcut, rfl, hleader, hcommit⟩ := cutFrom_of_entriesRequest hrequest
  have hself : request.leader = site.id := hleader.trans h.fits.self
  have hpossible := h.possible.set_send he hself hlog hcut
  have hsub := List.subset_cons_self (Fact.sent request log) facts
  refine ⟨_, hsub, h.mono hsub hpossible, log, List.mem_cons_self .., fun hprompt => ?_⟩
  refine (h.settled hprompt).mono hsub (hpresent hprompt) ?_
  rw [hcommit]
  exact List.prefix_take_iff.2 ⟨(List.take_prefix ..).trans hlog, List.length_take_le ..⟩

/-- What was dispatched was in the log, and dispatching teaches nothing. -/
theorem Sound.dispatch (h : s.Sound site facts) {term : Nat} {elected : List Entry}
    (he : Fact.election term site.id elected ∈ facts) (wants : Progress → Bool)
    {known : List (ServerId × Progress)} (hpeers : ∀ peer ∈ known, peer.1 ∈ s.peers)
    (hsends : MaySend site s term (s.dispatch term wants known).calls) :
    ∃ facts', facts ⊆ facts' ∧ s.Sound site facts' ∧
      SendsEntries site facts' (s.dispatch term wants known).calls := by
  induction known generalizing facts with
  | nil => exact ⟨facts, List.Subset.refl _, h, nofun⟩
  | cons peer rest ih =>
    obtain ⟨peer, progress⟩ := peer
    obtain ⟨hpeer, hrest⟩ := List.forall_mem_cons.1 hpeers
    rw [Server.dispatch] at hsends ⊢
    split at hsends
    · next hwants =>
      rw [if_pos hwants]
      cases hrequest : s.entriesRequest term peer progress.next with
      | error e => exact ⟨facts, List.Subset.refl _, h, nofun⟩
      | ok request =>
        rw [hrequest] at hsends
        -- a request is among the calls, so the loop is not one that keeps silent
        have hpresent : site.prompt → s.term ≤ term := fun hprompt =>
          (hsends hprompt).resolve_left (List.cons_ne_nil _ _)
        obtain ⟨facts₁, hsub₁, h₁, hsound⟩ := h.entriesRequest he hpresent hrequest
        obtain ⟨facts₂, hsub₂, h₂, hlater⟩ :=
          ih h₁ (hsub₁ he) hrest fun hprompt => Or.inr (hpresent hprompt)
        refine ⟨facts₂, List.Subset.trans hsub₁ hsub₂, h₂, List.forall_mem_cons.2 ⟨?_, hlater⟩⟩
        exact sendsTo h.fits hpeer (hsound.mono hsub₂)
    · next hwants =>
      rw [if_neg hwants]
      exact ih h he hrest hsends

omit [LawfulStorage σ] in
theorem dispatch_matched (s : Server σ μ) (term : Nat) (wants : Progress → Bool)
    (known : List (ServerId × Progress)) :
    (s.dispatch term wants known).peers.map (fun peer => (peer.1, peer.2.matched)) =
      known.map fun peer => (peer.1, peer.2.matched) := by
  induction known with
  | nil => rfl
  | cons peer rest ih =>
    obtain ⟨peer, progress⟩ := peer
    rw [Server.dispatch]
    split
    · split
      · rfl
      · rw [List.map_cons, ih, List.map_cons]
    · rw [List.map_cons, ih, List.map_cons]

theorem Sound.dispatchTo (h : s.Sound site facts) {term : Nat} {elected : List Entry}
    (he : Fact.election term site.id elected ∈ facts)
    {known : List (ServerId × Progress)} (hknown : KnownPeers facts term s.peers known)
    {peer : ServerId} (hpeer : peer ∈ s.peers) {progress : Progress}
    (hprogress : progress.matched ≠ 0 →
      ∃ log, Fact.ack peer term log ∈ facts ∧ progress.matched ≤ log.length)
    (hsends : MaySend site s term (s.dispatchTo term known peer progress).calls) :
    ∃ facts', facts ⊆ facts' ∧ s.Sound site facts' ∧
      SendsEntries site facts' (s.dispatchTo term known peer progress).calls ∧
      KnownPeers facts' term s.peers (s.dispatchTo term known peer progress).peers := by
  unfold Server.dispatchTo at hsends ⊢
  cases hrequest : s.entriesRequest term peer progress.next with
  | error e => exact ⟨facts, List.Subset.refl _, h, nofun, hknown.setProgress hprogress⟩
  | ok request =>
    rw [hrequest] at hsends
    obtain ⟨facts', hsub, h', hsound⟩ := h.entriesRequest he (fun hprompt =>
      (hsends hprompt).resolve_left (List.cons_ne_nil _ _)) hrequest
    refine ⟨facts', hsub, h', ?_, ?_⟩
    · exact List.forall_mem_cons.2 ⟨sendsTo h.fits hpeer hsound, nofun⟩
    · have hset : KnownPeers facts term s.peers
          (Server.setProgress known peer { progress with inFlight := true }) :=
        hknown.setProgress hprogress
      exact hset.mono hsub

/-! ## Turns -/

variable [StateMachine μ]

/-- What a turn of the loop of the leader of `term` does to its server is right. -/
structure Takes (site : Site) (facts : List Fact) (term : Nat) (s : Server σ μ)
    (turn : Turn σ μ) : Prop where
  calls : SendsEntries site facts turn.calls
  leader : turn.leader.Sound site facts s.peers
  term_eq : turn.leader.term = term
  server : turn.server.Sound site facts
  commits : Commits site facts term s turn.server

/-- A turn that changes nothing but what the loop knows. -/
theorem Sound.keeps (h : s.Sound site facts) {leader : Leader} {elected : List Entry}
    (he : Fact.election leader.term site.id elected ∈ facts) {calls : List Call}
    (hcalls : SendsEntries site facts calls) {known : List (ServerId × Progress)}
    (hknown : KnownPeers facts leader.term s.peers known) (nextBeat : Nat) (verdict : Verdict) :
    Takes site facts leader.term s
      ⟨calls, { leader with phase := .running known nextBeat }, s, verdict⟩ :=
  ⟨hcalls, ⟨⟨elected, he⟩, by rintro _ _ ⟨⟩; exact hknown⟩, rfl, h, Commits.refl ..⟩

theorem Sound.settle (h : s.Sound site facts) {leader : Leader} {elected : List Entry}
    (he : Fact.election leader.term site.id elected ∈ facts) {sent : Dispatch}
    (hcalls : SendsEntries site facts sent.calls)
    (hknown : KnownPeers facts leader.term s.peers sent.peers) (nextBeat : Nat) :
    ∃ facts', facts ⊆ facts' ∧
      Takes site facts' leader.term s (s.settle leader sent nextBeat) := by
  unfold Server.settle
  simp only
  split
  · exact ⟨facts, List.Subset.refl _, h.keeps he hcalls hknown nextBeat _⟩
  · obtain ⟨facts', hsub, hcommitted, hcommits⟩ := h.commitMajority he hknown
    generalize s.commitMajority leader.term sent.peers = committed at hcommitted hcommits ⊢
    have hleader : Leader.Sound site facts' s.peers
        { leader with phase := .running sent.peers nextBeat } :=
      ⟨⟨elected, hsub he⟩, by rintro _ _ ⟨⟩; exact hknown.mono hsub⟩
    refine ⟨facts', hsub, ?_⟩
    split
    · exact ⟨hcalls.mono hsub, hleader, rfl, hcommitted, hcommits⟩
    · exact ⟨hcalls.mono hsub, hleader, rfl, hcommitted, hcommits⟩

omit [LawfulStorage σ] in
/-- What a turn that settles has sent was dispatched before. -/
theorem settle_calls (s : Server σ μ) (leader : Leader) (sent : Dispatch) (nextBeat : Nat) :
    (s.settle leader sent nextBeat).calls = sent.calls := by
  unfold Server.settle
  simp only
  split
  · rfl
  · split <;> rfl

theorem Sound.handleReport (h : s.Sound site facts) {leader : Leader} {elected : List Entry}
    (he : Fact.election leader.term site.id elected ∈ facts)
    {known : List (ServerId × Progress)} (hknown : KnownPeers facts leader.term s.peers known)
    (nextBeat : Nat) {report : AppendReport} (hreport : report.Sound facts leader.term)
    (hsends : MaySend site s leader.term (s.handleReport leader known nextBeat report).calls) :
    ∃ facts', facts ⊆ facts' ∧
      Takes site facts' leader.term s (s.handleReport leader known nextBeat report) := by
  unfold Server.handleReport at hsends ⊢
  simp only at hsends ⊢
  cases hlookup : known.lookup report.peer with
  | none => exact ⟨facts, List.Subset.refl _, h.keeps he (.nil site facts) hknown nextBeat _⟩
  | some progress =>
    simp only [hlookup] at hsends ⊢
    have hold := hknown.of_lookup hlookup
    have hpeer : report.peer ∈ s.peers := hknown.mem_of_lookup hlookup
    have hfreed : KnownPeers facts leader.term s.peers
        (Server.setProgress known report.peer { progress with inFlight := false }) :=
      hknown.setProgress hold
    cases hreply : report.result with
    | error e => exact ⟨facts, List.Subset.refl _, h.keeps he (.nil site facts) hfreed nextBeat _⟩
    | ok reply =>
      simp only [hreply] at hsends ⊢
      split
      · exact ⟨facts, List.Subset.refl _, h.keeps he (.nil site facts) hfreed nextBeat _⟩
      · next hnewer =>
        rw [if_neg hnewer] at hsends
        split
        · next hsuccess =>
          rw [if_pos hsuccess, settle_calls] at hsends
          -- the peer has acknowledged a log that reaches to what it was sent
          have hadvanced : (Progress.advance progress report.lastIndex).matched ≠ 0 → ∃ log,
              Fact.ack report.peer leader.term log ∈ facts ∧
                (Progress.advance progress report.lastIndex).matched ≤ log.length := by
            intro hmatched
            rcases Nat.le_total progress.matched report.lastIndex with hle | hle
            · obtain ⟨log, hack, hlast⟩ := hreport reply hreply hsuccess
              exact ⟨log, hack, Nat.max_le.2 ⟨Nat.le_trans hle hlast, hlast⟩⟩
            · have hmax : (Progress.advance progress report.lastIndex).matched = progress.matched :=
                Nat.max_eq_left hle
              rw [hmax] at hmatched ⊢
              exact hold hmatched
          split
          · next hbehind =>
            rw [if_pos hbehind] at hsends
            obtain ⟨facts₁, hsub₁, h₁, hcalls, hknown₁⟩ :=
              h.dispatchTo he hknown hpeer hadvanced hsends
            obtain ⟨facts₂, hsub₂, htakes⟩ := h₁.settle (hsub₁ he) hcalls hknown₁ nextBeat
            exact ⟨facts₂, List.Subset.trans hsub₁ hsub₂, htakes⟩
          · exact h.settle he (.nil site facts) (hknown.setProgress hadvanced) nextBeat
        · next hrefused =>
          rw [if_neg hrefused] at hsends
          -- going back changes what is sent next, not what is known
          have hback : (Progress.backOff progress reply.matched).matched ≠ 0 → ∃ log,
              Fact.ack report.peer leader.term log ∈ facts ∧ progress.matched ≤ log.length := hold
          obtain ⟨facts', hsub, h', hcalls, hknown'⟩ :=
            h.dispatchTo he hknown hpeer hback hsends
          exact ⟨facts', hsub, h'.keeps (hsub he) hcalls hknown' nextBeat _⟩

omit [LawfulStorage σ] [StateMachine μ] in
/-- A leader has nothing to say about its peers at first. -/
theorem knownPeers_initialProgress (facts : List Fact) (term : Nat) (s : Server σ μ) :
    KnownPeers facts term s.peers s.initialProgress := by
  unfold Server.initialProgress
  constructor
  · rw [List.map_map]
    exact List.map_id _
  · intro peer hpeer hmatched
    obtain ⟨id, -, rfl⟩ := List.mem_map.1 hpeer
    exact absurd rfl hmatched

/-- A turn of a loop, which may be one that was told to end. -/
theorem Sound.leaderTurn (h : s.Sound site facts) (clock : Clock) {branch : Branch}
    {leader : Leader} (hleader : leader.Sound site facts s.peers)
    (hbranch : branch.Sound facts leader.term)
    (hsends : MaySend site s leader.term (s.leaderTurn clock branch leader).calls) :
    ∃ facts', facts ⊆ facts' ∧
      Takes site facts' leader.term s (s.leaderTurn clock branch leader) := by
  obtain ⟨elected, he⟩ := hleader.elected
  unfold Server.leaderTurn at hsends ⊢
  cases hphase : leader.phase with
  | ended => exact ⟨facts, List.Subset.refl _, .nil site facts, hleader, rfl, h, Commits.refl ..⟩
  | starting => exact ⟨facts, List.Subset.refl _,
      h.keeps he (.nil site facts) (knownPeers_initialProgress ..) _ _⟩
  | running known nextBeat =>
    simp only [hphase] at hsends ⊢
    have hknown := hleader.known known nextBeat hphase
    have hpeers : ∀ peer ∈ known, peer.1 ∈ s.peers := by
      intro peer hpeer
      rw [← hknown.peers]
      exact List.mem_map_of_mem hpeer
    have hidle : ∀ verdict, Takes site facts leader.term s ⟨[], leader, s, verdict⟩ :=
      fun verdict => ⟨.nil site facts, hleader, rfl, h, Commits.refl ..⟩
    -- what a heartbeat and a wake-up have in common
    have hsettles : ∀ wants awake beat,
        MaySend site s leader.term (s.dispatch leader.term wants known).calls →
        ∃ facts', facts ⊆ facts' ∧ Takes site facts' leader.term s
          (s.settle { leader with awake } (s.dispatch leader.term wants known) beat) := by
      intro wants awake beat hsends
      obtain ⟨facts₁, hsub₁, h₁, hcalls⟩ := h.dispatch he wants hpeers hsends
      have hknown₁ := (hknown.mono hsub₁).of_matched (dispatch_matched s leader.term wants known)
      obtain ⟨facts₂, hsub₂, htakes⟩ :=
        @Sound.settle _ _ σ μ _ s _ h₁ { leader with awake } elected (hsub₁ he) _ hcalls hknown₁ beat
      exact ⟨facts₂, List.Subset.trans hsub₁ hsub₂, htakes⟩
    cases branch with
    | stop => exact ⟨facts, List.Subset.refl _, hidle _⟩
    | beat =>
      simp only [settle_calls] at hsends
      exact hsettles _ leader.awake _ hsends
    | wake =>
      simp only at hsends ⊢
      split
      · next hawake =>
        rw [if_pos hawake, settle_calls] at hsends
        exact hsettles _ false _ hsends
      · exact ⟨facts, List.Subset.refl _, hidle _⟩
    | outcome report => exact h.handleReport he hknown nextBeat hbranch hsends

/-! ## Loops -/

/-- If more is committed, it is chosen, by a leader of the server's term or an earlier one. -/
def Vouched (site : Site) (facts : List Fact) (s s' : Server σ μ) : Prop :=
  s.volatile.committed < s'.volatile.committed →
    s'.volatile.committed ≤ s'.log.length ∧
      Chosen site.ids facts (s'.log.entries.take s'.volatile.committed) ∧
      lastTerm (s'.log.entries.take s'.volatile.committed) ≤ s.term

omit [LawfulStorage σ] [StateMachine μ] in
theorem Quiet.vouched {s' : Server σ μ} (h : Quiet s s') : Vouched site facts s s' := by
  intro hlt
  rw [h.committed] at hlt
  exact absurd hlt (Nat.lt_irrefl _)

/-- What a loop has sent, and what it has made of its server, is right. -/
structure Runs (site : Site) (facts : List Fact) (s : Server σ μ)
    (run : List Call × Server σ μ) : Prop where
  calls : SendsEntries site facts run.1
  server : run.2.Sound site facts
  vouched : Vouched site facts s run.2
  hands : site.prompt → Hands s run.2

/-- What follows a turn commits nothing. -/
theorem Takes.runs {term : Nat} {turn : Turn σ μ} (htakes : Takes site facts term s turn)
    (hterm : term ≤ s.term) {s' : Server σ μ} (hsound : s'.Sound site facts)
    (hquiet : Quiet turn.server s') (hlog : s'.log = turn.server.log) :
    Runs site facts s (turn.calls, s') := by
  refine ⟨htakes.calls, hsound, fun hlt => ?_, fun hprompt =>
    (htakes.commits.hands hprompt).trans_quiet hquiet hlog⟩
  obtain ⟨volatile, machine, hsame⟩ := htakes.commits.same
  have hown : s'.log = s.log := by rw [hlog, hsame]
  show s'.volatile.committed ≤ s'.log.length ∧
    Chosen _ _ (s'.log.entries.take s'.volatile.committed) ∧
      lastTerm (s'.log.entries.take s'.volatile.committed) ≤ s.term
  rw [hquiet.committed] at hlt ⊢
  rw [hown]
  obtain ⟨hle, hchosen, hlast⟩ := htakes.commits.chosen hlt
  exact ⟨hle, hchosen, hlast ▸ hterm⟩

/-- After a turn of the present loop the server may go on as the same leader. -/
theorem Takes.withLeader {leader leader' : Leader} {turn : Turn σ μ}
    (htakes : Takes site facts leader.term s turn) (hrole : s.role = .leader leader)
    (hterm : leader'.term = leader.term) (hleader : leader'.Sound site facts s.peers) :
    ({ turn.server with role := .leader leader' } : Server σ μ).Sound site facts := by
  obtain ⟨volatile, machine, hsame⟩ := htakes.commits.same
  have hserver := htakes.server
  rw [hsame] at hserver ⊢
  refine hserver.withRole (List.Subset.refl _) hleader ?_
  have hpossible := hserver.possible
  unfold Server.profile at hpossible
  simp only [hrole] at hpossible
  rw [Role.standing_leader, hterm]
  exact hpossible

theorem Sound.runLeader (h : s.Sound site facts) (clock : Clock) {branch : Branch}
    {leader : Leader} (hrole : s.role = .leader leader) (hbranch : branch.Sound facts leader.term) :
    ∃ facts', facts ⊆ facts' ∧ Runs site facts' s (s.runLeader clock branch leader) := by
  have hterm := h.term_eq_of_leader hrole
  have hleader : leader.Sound site facts s.peers := by
    have := h.role
    rwa [hrole] at this
  obtain ⟨facts', hsub, htakes⟩ :=
    h.leaderTurn clock hleader hbranch fun _ => Or.inr (Nat.le_of_eq hterm)
  refine ⟨facts', hsub, ?_⟩
  unfold Server.runLeader
  generalize s.leaderTurn clock branch leader = turn at htakes ⊢
  have hgoes := htakes.withLeader hrole htakes.term_eq htakes.leader
  have hended : ({ turn.server with role := .leader { turn.leader with phase := .ended } } :
      Server σ μ).Sound site facts' :=
    htakes.withLeader hrole htakes.term_eq ⟨htakes.leader.elected, nofun⟩
  simp only
  split
  · exact htakes.runs (Nat.le_of_eq hterm.symm) hgoes (quiet_role ..) rfl
  · exact htakes.runs (Nat.le_of_eq hterm.symm) hended (quiet_role ..) rfl
  · exact htakes.runs (Nat.le_of_eq hterm.symm) (hended.stopRole.recover clock)
      (((quiet_role ..).trans (quiet_role ..)).trans (quiet_recover ..)) (recover_log ..)
  · next term _ =>
    have hstepped := hended.stepDown clock term
    have hquiet := (quiet_role turn.server _).trans (quiet_stepDown clock term
      { turn.server with role := .leader { turn.leader with phase := .ended } })
    have hlog := stepDown_log clock term
      ({ turn.server with role := .leader { turn.leader with phase := .ended } } : Server σ μ)
    split
    · exact htakes.runs (Nat.le_of_eq hterm.symm) hstepped hquiet hlog
    · exact htakes.runs (Nat.le_of_eq hterm.symm) (hstepped.stopRole.recover clock)
        (hquiet.trans ((quiet_role ..).trans (quiet_recover ..))) ((recover_log ..).trans hlog)

omit [LawfulStorage σ] in
/-- What a loop whose role was given up sends is what its turn sends. -/
theorem runRetired_calls [Storage σ] (clock : Clock) (branch : Branch) {place : Nat}
    {leader : Leader} (h : s.retired[place]? = some (.leader leader)) :
    (s.runRetired clock branch place).1 = (s.leaderTurn clock branch leader).calls := by
  unfold Server.runRetired
  rw [h]
  simp only
  split <;> rfl

/-- A turn of a loop whose role was given up. -/
theorem Sound.runRetired (h : s.Sound site facts) (clock : Clock) {branch : Branch} {place : Nat}
    (hbranch : ∀ leader, s.retired[place]? = some (.leader leader) →
      branch.Sound facts leader.term)
    (hquiet : site.prompt → (s.runRetired clock branch place).1 = []) :
    ∃ facts', facts ⊆ facts' ∧ Runs site facts' s (s.runRetired clock branch place) := by
  have herase : ∀ leader, .leader leader ∈ s.retired.eraseIdx place →
      leader.Sound site facts s.peers := fun leader hmem =>
    h.retired leader (List.mem_of_mem_eraseIdx hmem)
  have hcalls := @runRetired_calls σ μ s _ _ clock branch place
  unfold Server.runRetired
  split
  · next leader hplace =>
    have hleader := h.retired leader (List.mem_of_getElem? hplace)
    obtain ⟨elected, he⟩ := hleader.elected
    have hterm := h.term_le_of_elected he
    obtain ⟨facts', hsub, htakes⟩ := h.leaderTurn clock hleader (hbranch leader hplace) fun hprompt =>
      Or.inl ((hcalls hplace).symm.trans (hquiet hprompt))
    refine ⟨facts', hsub, ?_⟩
    generalize s.leaderTurn clock branch leader = turn at htakes ⊢
    obtain ⟨volatile, machine, hsame⟩ := htakes.commits.same
    have hpeers : turn.server.peers = s.peers := by rw [hsame]
    have hrest := htakes.server.withRetired (s.retired.eraseIdx place) fun leader hmem =>
      hpeers ▸ (herase leader hmem).mono hsub
    simp only
    split
    · refine htakes.runs hterm (htakes.server.withRetired _ fun leader' hmem => ?_) ⟨rfl, rfl, rfl⟩ rfl
      rw [hpeers]
      rcases List.mem_or_eq_of_mem_set hmem with hold | hnew
      · exact (h.retired leader' hold).mono hsub
      · obtain rfl := Role.leader.inj hnew
        exact htakes.leader
    · exact htakes.runs hterm hrest ⟨rfl, rfl, rfl⟩ rfl
    · exact htakes.runs hterm hrest ⟨rfl, rfl, rfl⟩ rfl
    · next term _ =>
      refine htakes.runs hterm (hrest.stepDown clock term) ?_ (stepDown_log ..)
      have hforgets : Quiet turn.server { turn.server with retired := s.retired.eraseIdx place } :=
        ⟨rfl, rfl, rfl⟩
      exact hforgets.trans (quiet_stepDown clock term _)
  · exact ⟨facts, List.Subset.refl _, .nil site facts, h.withRetired _ herase,
      Quiet.vouched ⟨rfl, rfl, rfl⟩, fun _ => Quiet.hands ⟨rfl, rfl, rfl⟩⟩
  · exact ⟨facts, List.Subset.refl _, .nil site facts, h, (Quiet.refl s).vouched, fun _ =>
      (Quiet.refl s).hands⟩

/-- The outcome of a request goes to the loop that has made it. -/
theorem Sound.handOutcome (h : s.Sound site facts) (clock : Clock) {term : Nat}
    {report : AppendReport} (hreport : report.Sound facts term)
    (hquiet : site.prompt → s.role.leads term ∨ (s.handOutcome clock term report).1 = []) :
    ∃ facts', facts ⊆ facts' ∧ Runs site facts' s (s.handOutcome clock term report) := by
  have hidle : ∃ facts', facts ⊆ facts' ∧ Runs site facts' s ([], s) :=
    ⟨facts, List.Subset.refl _, .nil site facts, h, (Quiet.refl s).vouched, fun _ =>
      (Quiet.refl s).hands⟩
  unfold Server.handOutcome Server.runRole at hquiet ⊢
  by_cases hleads : s.role.leads term
  · rw [if_pos hleads]
    cases hrole : s.role with
    | follower => exact hidle
    | candidate candidate => simp [hrole, Role.leads] at hleads
    | leader leader =>
      obtain rfl : leader.term = term := by simpa [hrole, Role.leads] using hleads
      exact h.runLeader clock hrole hreport
  · rw [if_neg hleads] at hquiet ⊢
    cases hplace : s.retired.findIdx? (·.leads term) with
    | none => exact hidle
    | some place =>
      simp only [hplace] at hquiet ⊢
      obtain ⟨hlt, hfound, -⟩ := List.findIdx?_eq_some_iff_getElem.1 hplace
      refine h.runRetired clock (fun leader hleader => ?_) fun hprompt =>
        (hquiet hprompt).resolve_left hleads
      rw [List.getElem?_eq_getElem hlt] at hleader
      rw [Option.some.inj hleader] at hfound
      obtain rfl : leader.term = term := by simpa [Role.leads] using hfound
      exact hreport

end Server

end Quorum
