import Quorum.KeyValue.Store
import Quorum.Proofs.Log.Reordering
import Quorum.Proofs.Log.Splice
import Quorum.Proofs.Server.Bookkeeping
import Quorum.Server.Step

set_option autoImplicit false

/-! # Repairing a log

A leader does not know where the log of a follower departs from its own. It finds out by trying: as
long as the follower refuses, it goes back, and from the first entries that are taken on it sends
all the rest. Left to themselves, the two get there. A refusal moves the next index back by one at
least, nothing is refused that goes behind the entries that both have in common, and before the
first entry there is nothing to refuse. Once entries are taken the two agree up to the last of them,
so nothing is refused any more and each request brings 64 entries, or all that are left. -/

namespace Quorum

/-! ## Slices of a log that meet another one -/

namespace AppendRequest.IsSliceOf

variable {request : AppendRequest} {log source : Log}

theorem isCutFrom (h : request.IsSliceOf source) :
    Batch.IsCutFrom ⟨request.prev, request.entries⟩ source :=
  ⟨h.prev, h.entries ▸ List.take_prefix ..⟩

/-- A slice goes as far as 64 entries do, or the log. -/
theorem le_lastIndex (h : request.IsSliceOf source) :
    min (request.prev.index + 64) source.length ≤ request.lastIndex := by
  rw [AppendRequest.lastIndex, h.entries, List.length_take, List.length_drop]
  unfold Log.length
  omega

/-- A slice of a log is taken by whoever has the entries before it. -/
theorem not_prefix_of_rejected (h : request.IsSliceOf source)
    (hrejected : (log.append request.entries request.prev).1 = .rejected) :
    ¬ source.entries.take request.prev.index <+: log.entries := by
  intro hprefix
  obtain ⟨hle, hlast⟩ := (source.termAt_eq_some_iff ..).1 h.prev
  have hcovers : (source.truncateAfter request.prev.index).Covers [] request.prev := by
    refine ⟨(Log.termAt_eq_some_iff ..).2 ⟨?_, ?_⟩, List.forall_mem_nil _⟩
    · exact Nat.le_of_eq (List.length_take_of_le hle).symm
    · rw [Log.entries_truncateAfter, List.take_take, Nat.min_self, hlast]
  obtain ⟨hterm, -⟩ := hcovers.of_prefix hprefix
  rcases Log.refuses_of_rejected hrejected with hpast | hne | hgap
  · rw [(log.termAt_eq_none_iff _).2 hpast] at hterm
    cases hterm
  · exact hne hterm
  · refine hgap ?_
    rw [h.entries, Nat.add_comm]
    exact (source.contiguous.drop request.prev.index).take 64

/-- A log that has taken a slice has the other log up to the end of the slice, and it has not lost
    what they had in common. -/
theorem prefix_of_accepted (h : request.IsSliceOf source)
    (hmatching : Matching log.entries source.entries) {last : Nat} {first : Option Nat}
    (haccepted : (log.append request.entries request.prev).1 = .accepted last first) {known : Nat}
    (hknown : source.entries.take known <+: log.entries) :
    last = request.lastIndex ∧
      source.entries.take (max known last) <+: (log.append request.entries request.prev).2.entries := by
  have hsplices := log.append_splices request.entries request.prev
  obtain ⟨sent, hsent, htakes⟩ := h.isCutFrom.exists_takes hmatching
  simp only at htakes
  rw [haccepted] at hsplices htakes
  obtain ⟨hlength, htaken⟩ := htakes.prefix_of_accepted
  refine ⟨hsplices.covers.1, ?_⟩
  rcases Nat.le_total known last with hle | hle
  · rw [Nat.max_eq_right hle, hlength, ← List.prefix_iff_eq_take.1 hsent]
    exact htaken
  · rw [Nat.max_eq_left hle]
    exact htakes.keeps hknown (Comparable.of_prefix (List.take_prefix ..) hsent)

end AppendRequest.IsSliceOf

/-! ## The follower -/

/-- The reply to a leader, from what became of its entries and where the log ended before. -/
def AppendOutcome.reply (term last : Nat) : AppendOutcome → AppendReply
  | .rejected => ⟨term, false, last⟩
  | .accepted lastNew _ => ⟨term, true, lastNew⟩

namespace Server

variable {σ μ : Type} {s : Server σ μ} {term : Nat} {peer : ServerId}

/-- A follower in a term, whose disk works. -/
structure Follows [Storage σ] (s : Server σ μ) (term : Nat) : Prop where
  role : s.role = .follower
  term : s.term = term
  applied : s.volatile.applied ≤ s.volatile.committed
  disk : Works s.durable.disk

/-- A follower whose disk works answers a leader of its term by what its log says to the entries. -/
theorem Follows.appendEntries [Storage σ] [StateMachine μ] (h : s.Follows term) (clock : Clock)
    {request : AppendRequest} (hterm : request.term = term) :
    ∃ s' : Server σ μ, s.appendEntries clock request =
        .ok ((s.log.append request.entries request.prev).1.reply term s.log.last.index) s' ∧
      s'.Follows term ∧ s'.id = s.id ∧
      s'.log = (s.log.append request.entries request.prev).2 := by
  obtain ⟨hrole, rfl, happlied, hdisk⟩ := h
  have hstays : s.stepDown clock request.term = .ok false s := by
    rw [Server.stepDown, DurableState.adoptTerm, if_pos (Nat.le_of_eq hterm)]
    rfl
  rw [Server.appendEntries, hstays, Attempt.andThen_ok, Server.answerEntries, hrole]
  obtain ⟨durable, hworking, hlog, hretains, hworks⟩ :=
    DurableState.append_of_works hdisk request.entries request.prev
  have hsplices := s.log.append_splices request.entries request.prev
  have hfollows : (s.heard clock request.leader durable).Follows s.term :=
    ⟨hrole, congrArg Ballot.term hretains.ballot, happlied, hworks⟩
  have htakes := takesEntries_takeEntries clock request s
  generalize s.takeEntries clock request = taken at htakes ⊢
  cases htakes with
  | outdated hlt => exact absurd hterm (Nat.ne_of_lt hlt)
  | fails _ happend => cases hworking.symm.trans happend
  | refuses _ happend =>
    obtain ⟨houtcome, rfl⟩ := Attempt.mk.inj (hworking.symm.trans happend)
    have hsame := Log.append_of_refuses (Log.refuses_of_rejected (Except.ok.inj houtcome))
    rw [hsame] at hlog ⊢
    refine ⟨_, ?_, hfollows, rfl, hlog⟩
    rw [Server.refuseEntries, Server.log, Server.heard, hlog]
    rfl
  | keeps _ happend =>
    obtain ⟨houtcome, rfl⟩ := Attempt.mk.inj (hworking.symm.trans happend)
    rw [Except.ok.inj houtcome]
    exact ⟨_, rfl, hfollows, rfl, hlog⟩
  | commits _ happend hcommit hs' =>
    obtain ⟨houtcome, rfl⟩ := Attempt.mk.inj (hworking.symm.trans happend)
    rw [Except.ok.inj houtcome, ← hlog] at hsplices
    rw [Except.ok.inj houtcome]
    subst hs'
    rw [applyEntries_eq]
    · exact ⟨_, rfl, ⟨hrole, hfollows.term, Nat.le_refl _, hworks⟩, rfl, hlog⟩
    · exact Nat.le_trans happlied (Nat.le_of_lt hcommit)
    · exact Nat.le_trans (Nat.min_le_right ..) hsplices.last_le

/-! ## The leader -/

/-- What a leader whose loop runs knows of a peer. -/
def progressOf (s : Server σ μ) (peer : ServerId) : Option Progress :=
  match s.role with
  | .leader ⟨_, .running known _, _, _⟩ => known.lookup peer
  | _ => none

/-- The leader of a term whose loop runs, with what it knows of a peer. -/
structure Replicates (s : Server σ μ) (term : Nat) (peer : ServerId) (progress : Progress) :
    Prop where
  leads : s.role.leads term
  progress : s.progressOf peer = some progress
  applied : s.volatile.applied ≤ s.volatile.committed

theorem Replicates.exists_known {progress : Progress} (h : s.Replicates term peer progress) :
    ∃ leader known nextBeat, s.role = .leader leader ∧ leader.term = term ∧
      leader.phase = .running known nextBeat ∧ known.lookup peer = some progress := by
  have hleads := h.leads
  have hprogress := h.progress
  unfold progressOf at hprogress
  split at hprogress
  · next known nextBeat awake stopped hrole =>
    rw [hrole] at hleads
    exact ⟨_, known, nextBeat, hrole, of_decide_eq_true hleads, rfl, hprogress⟩
  · cases hprogress

theorem lookup_setProgress {known : List (ServerId × Progress)} {old : Progress}
    (h : known.lookup peer = some old) (progress : Progress) :
    (setProgress known peer progress).lookup peer = some progress := by
  induction known with
  | nil => cases h
  | cons first rest ih =>
    obtain ⟨id, known⟩ := first
    by_cases hid : id = peer
    · simp [setProgress, hid]
    · have hne : (peer == id) = false := by simpa using Ne.symm hid
      rw [List.lookup_cons, hne] at h
      simpa [setProgress, hid, List.lookup_cons, hne] using ih h

variable [Storage σ] [StateMachine μ] {leader : Leader} {known known' : List (ServerId × Progress)}
  {nextBeat : Nat} {progress progress' : Progress} {report : AppendReport} {calls : List Call}

/-- A leader that goes on after it has looked at the outcome of a request. -/
theorem Replicates.goes_on (hrole : s.role = .leader leader) (hterm : leader.term = term)
    (hphase : leader.phase = .running known nextBeat) (clock : Clock) {server : Server σ μ}
    (hturn : s.handleReport leader known nextBeat report =
      ⟨calls, { leader with phase := .running known' nextBeat }, server, .goesOn⟩)
    (hserver : s.Advances server) (happlied : server.volatile.applied ≤ server.volatile.committed)
    (hlookup : known'.lookup peer = some progress') :
    ∃ s' : Server σ μ, s.step clock (.appendResult term report) = ⟨.none, calls, s'⟩ ∧
      s'.Replicates term peer progress' ∧ s'.log = s.log ∧ s'.id = s.id := by
  have hleads : s.role.leads term = true := by
    rw [hrole]
    exact decide_eq_true hterm
  refine ⟨{ server with role := .leader { leader with phase := .running known' nextBeat } }, ?_,
    ⟨decide_eq_true hterm, hlookup, happlied⟩, ?_, ?_⟩
  · rw [Server.step, Server.handOutcome, if_pos hleads, Server.runRole, hrole]
    simp only [Server.runLeader, Server.leaderTurn, hphase, hturn]
  all_goals
    obtain ⟨committed, applied, machine, rfl⟩ := hserver
    rfl

/-- A peer that has taken entries is sent the next ones, as long as there are any. -/
theorem Replicates.hears_success (h : s.Replicates term peer progress) (clock : Clock)
    (request : AppendRequest) (reply : AppendReply) (hterm : reply.term ≤ term)
    (hsuccess : reply.success = true) :
    let learned := Progress.advance progress request.lastIndex
    ∃ s' : Server σ μ,
      s.step clock (.appendResult term (request.report peer (.ok reply))) =
        ⟨.none,
          if learned.next ≤ s.log.length then [⟨peer, .append (s.slice term learned.next)⟩] else [],
          s'⟩ ∧
      s'.Replicates term peer { learned with inFlight := learned.next ≤ s.log.length } ∧
      s'.log = s.log ∧ s'.id = s.id := by
  intro learned
  obtain ⟨leader, known, nextBeat, hrole, rfl, hphase, hlookup⟩ := h.exists_known
  have hlast : s.log.last.index = s.log.length := s.log.contiguous.index_endOf
  have hsent :
      (if learned.next ≤ s.log.last.index
        then s.dispatchTo leader.term known peer learned
        else ⟨[], setProgress known peer learned, none⟩) =
      ⟨if learned.next ≤ s.log.length
        then [⟨peer, .append (s.slice leader.term learned.next)⟩] else [],
        setProgress known peer { learned with inFlight := learned.next ≤ s.log.length },
        none⟩ := by
    rw [hlast]
    split
    · next hmore =>
      rw [s.dispatchTo_eq _ _ _ (Nat.le_succ_of_le hmore), decide_eq_true hmore]
    · next hdone =>
      rw [decide_eq_false hdone]
      rfl
  obtain ⟨server, hcommits, hadvances, happlied⟩ := commitMajority_advances h.applied leader.term
    (setProgress known peer { learned with inFlight := learned.next ≤ s.log.length })
  refine Replicates.goes_on hrole rfl hphase clock ?_ hadvances happlied
    (lookup_setProgress hlookup _)
  rw [Server.handleReport, AppendRequest.report, hlookup]
  simp only
  rw [if_neg (Nat.not_lt.2 hterm), if_pos hsuccess, hsent, Server.settle]
  simp only [hcommits]
  rfl

/-- A peer that has refused entries is tried again further back. -/
theorem Replicates.hears_refusal (h : s.Replicates term peer progress) (clock : Clock)
    (request : AppendRequest) (reply : AppendReply) (hterm : reply.term ≤ term)
    (hrefused : reply.success = false) (hnext : progress.next ≤ s.log.length + 1) :
    let learned := Progress.backOff progress reply.matched
    ∃ s' : Server σ μ,
      s.step clock (.appendResult term (request.report peer (.ok reply))) =
        ⟨.none, [⟨peer, .append (s.slice term learned.next)⟩], s'⟩ ∧
      s'.Replicates term peer { learned with inFlight := true } ∧
      s'.log = s.log ∧ s'.id = s.id := by
  intro learned
  obtain ⟨leader, known, nextBeat, hrole, rfl, hphase, hlookup⟩ := h.exists_known
  have hbound : learned.next ≤ s.log.length + 1 := by
    show max 1 (min (progress.next - 1) (reply.matched + 1)) ≤ s.log.length + 1
    omega
  refine Replicates.goes_on hrole rfl hphase clock ?_ (Advances.refl s) h.applied
    (lookup_setProgress hlookup _)
  rw [Server.handleReport, AppendRequest.report, hlookup]
  simp only
  rw [if_neg (Nat.not_lt.2 hterm), if_neg (by rw [hrefused]; nofun), s.dispatchTo_eq _ _ _ hbound]
  rfl

end Server

/-! ## The two together -/

/-- A leader and a follower that have only each other, with the request that is on its way. -/
structure Dialogue (σ μ : Type) where
  leader : Server σ μ
  follower : Server σ μ
  request : Option AppendRequest

/-- The request with entries that a call takes to a server. -/
def Call.entriesFor? (call : Call) (id : ServerId) : Option AppendRequest :=
  match call.request with
  | .append request => if call.target = id then some request else none
  | .vote _ => none

@[simp]
theorem Call.entriesFor?_append (id : ServerId) (request : AppendRequest) :
    (⟨id, .append request⟩ : Call).entriesFor? id = some request := if_pos rfl

theorem findSome?_entriesFor? (id : ServerId) (request : AppendRequest) (more : Prop)
    [Decidable more] :
    (if more then [(⟨id, .append request⟩ : Call)] else []).findSome? (·.entriesFor? id) =
      if more then some request else none := by
  split <;> simp

namespace Dialogue

variable {σ μ : Type}

/-- What the leader knows of the follower. -/
def progress? (d : Dialogue σ μ) : Option Progress := d.leader.progressOf d.follower.id

section

variable [Storage σ] [StateMachine μ]

/-- What the leader hears of a request that gets to the follower. -/
def result (d : Dialogue σ μ) (clock : Clock) (request : AppendRequest) :
    Except CallError AppendReply :=
  (d.follower.step clock (.appendEntries request)).answer.appendReply.mapError fun e =>
    .rejected d.follower.id e.message

/-- The request gets to the follower, the leader hears of it and may send another one. If there is
    none, nothing happens. The follower and the leader have a clock each. -/
def round (clocks : Clock × Clock) (d : Dialogue σ μ) : Dialogue σ μ :=
  match d.request with
  | none => d
  | some request =>
      let taken := d.follower.step clocks.1 (.appendEntries request)
      let outcome := Outcome.append request (d.result clocks.1 request)
      let heard := d.leader.step clocks.2 (outcome.event d.follower.id)
      ⟨heard.server, taken.server, heard.calls.findSome? (·.entriesFor? d.follower.id)⟩

/-- The two after some rounds. -/
def after (clocks : Nat → Clock × Clock) (d : Dialogue σ μ) : Nat → Dialogue σ μ
  | 0 => d
  | n + 1 => (d.after clocks n).round (clocks n)

/-- In the next round, the leader hears that the entries were taken, or that they were refused. -/
def Hears (d : Dialogue σ μ) (clocks : Clock × Clock) (success : Bool) : Prop :=
  ∃ request reply, d.request = some request ∧ d.result clocks.1 request = .ok reply ∧
    reply.success = success

/-- In the next round, the entries are refused, and the next index goes back. -/
def Retreats (d : Dialogue σ μ) (clocks : Clock × Clock) : Prop :=
  d.Hears clocks false ∧ ∃ before later, d.progress? = some before ∧
    (d.round clocks).progress? = some later ∧ 1 ≤ later.next ∧ later.next < before.next

end

/-- The leader of a term with the log `source`, and a follower of that term with a matching log.
    What the leader knows of the follower is true, and the next index is not past the end. -/
structure Open [Storage σ] (d : Dialogue σ μ) (source : Log) (term : Nat) (progress : Progress) :
    Prop where
  log : d.leader.log = source
  leader : d.leader.Replicates term d.follower.id progress
  follower : d.follower.Follows term
  matching : Matching d.follower.log.entries source.entries
  next : 1 ≤ progress.next ∧ progress.next ≤ source.length + 1
  matched : progress.matched ≤ source.length
  agrees : source.entries.take progress.matched <+: d.follower.log.entries

/-- The request that is on its way sends the entries of the log from `next` on. -/
def Sends (d : Dialogue σ μ) (source : Log) (term next : Nat) : Prop :=
  ∃ request, d.request = some request ∧ request.IsSliceOf source ∧ request.term = term ∧
    request.prev.index + 1 = next

variable [Storage σ] [StateMachine μ] {d : Dialogue σ μ} {source : Log} {term : Nat}
  {progress : Progress} {request : AppendRequest}

/-- The next entry to send is the one behind those that are known to agree, and it is on its way as
    long as there is one. -/
structure InStep [Storage σ] (d : Dialogue σ μ) (source : Log) (term matched : Nat) : Prop where
  isOpen : d.Open source term ⟨matched + 1, matched, matched + 1 ≤ source.length⟩
  sends : matched + 1 ≤ source.length → d.Sends source term (matched + 1)
  rests : source.length < matched + 1 → d.request = none

/-! ## One round -/

/-- A round comes to what the log of the follower says to the entries, and what the leader makes of
    that. -/
theorem Open.round_eq (h : d.Open source term progress) (hrequest : d.request = some request)
    (hterm : request.term = term) (clocks : Clock × Clock) :
    let taken := d.follower.log.append request.entries request.prev
    let reply := taken.1.reply term d.follower.log.last.index
    ∃ follower : Server σ μ, follower.Follows term ∧ follower.id = d.follower.id ∧
      follower.log = taken.2 ∧ d.result clocks.1 request = .ok reply ∧
      ∀ {calls : List Call} {leader : Server σ μ},
        d.leader.step clocks.2 (.appendResult term (request.report d.follower.id (.ok reply))) =
          ⟨.none, calls, leader⟩ →
        d.round clocks = ⟨leader, follower, calls.findSome? (·.entriesFor? d.follower.id)⟩ := by
  intro taken reply
  obtain ⟨follower, happend, hfollows, hid, hlog⟩ := h.follower.appendEntries clocks.1 hterm
  have hstep : d.follower.step clocks.1 (.appendEntries request) =
      ⟨.append (.ok reply), [], follower⟩ := by
    rw [Server.step, happend]
    rfl
  have hresult : d.result clocks.1 request = .ok reply := by
    rw [Dialogue.result, hstep]
    rfl
  refine ⟨follower, hfollows, hid, hlog, hresult, fun hheard => ?_⟩
  rw [Dialogue.round, hrequest]
  simp only
  rw [hresult, hstep, Outcome.event, hterm, hheard]

omit [Storage σ] [StateMachine μ] in
theorem sends_of_slice {s : Server σ μ} (hlog : s.log = source) {next : Nat} (hpos : 1 ≤ next)
    (hnext : next ≤ source.length + 1) (hrequest : d.request = some (s.slice term next)) :
    d.Sends source term next := by
  subst hlog
  exact ⟨_, hrequest, s.isSliceOf_slice term hnext, rfl, Nat.sub_add_cancel hpos⟩

/-- The leader is at least one step further back once entries are refused, and has not lost what it
    knew. -/
theorem Open.refused (h : d.Open source term progress) (hrequest : d.request = some request)
    (hslice : request.IsSliceOf source) (hterm : request.term = term)
    (hprev : request.prev.index + 1 = progress.next) (clocks : Clock × Clock)
    (hrejected : (d.follower.log.append request.entries request.prev).1 = .rejected) :
    d.Retreats clocks ∧ ∃ later, later.next < progress.next ∧
      (d.round clocks).Open source term later ∧ (d.round clocks).Sends source term later.next := by
  obtain ⟨follower, hfollows, hid, hlog, hresult, hround⟩ := h.round_eq hrequest hterm clocks
  rw [Log.append_of_refuses (Log.refuses_of_rejected hrejected)] at hlog hresult hround
  obtain ⟨leader, hheard, hreplicates, hllog, -⟩ :=
    h.leader.hears_refusal clocks.2 request ⟨term, false, d.follower.log.last.index⟩
      (Nat.le_refl term) rfl (h.log.symm ▸ h.next.2)
  -- in front of the first entry there is nothing to refuse
  have hback : 1 < progress.next := by
    refine Nat.lt_of_not_le fun hfirst => hslice.not_prefix_of_rejected hrejected ?_
    rw [show request.prev.index = 0 by omega]
    exact List.nil_prefix
  let learned := Server.Progress.backOff progress d.follower.log.last.index
  have hpos : 1 ≤ learned.next := Nat.le_max_left ..
  have hlt : learned.next < progress.next := by
    show max 1 (min (progress.next - 1) (d.follower.log.last.index + 1)) < progress.next
    omega
  have hnext : learned.next ≤ source.length + 1 := Nat.le_trans (Nat.le_of_lt hlt) h.next.2
  have hround : d.round clocks = ⟨leader, follower, some (d.leader.slice term learned.next)⟩ := by
    rw [hround hheard, List.findSome?_singleton, Call.entriesFor?_append]
  have hopen : (d.round clocks).Open source term { learned with inFlight := true } := by
    rw [hround]
    exact ⟨hllog.trans h.log, hid ▸ hreplicates, hfollows, hlog ▸ h.matching, ⟨hpos, hnext⟩,
      h.matched, hlog ▸ h.agrees⟩
  refine ⟨⟨⟨request, _, hrequest, hresult, rfl⟩, progress, _, h.leader.progress,
    hopen.leader.progress, hpos, hlt⟩, { learned with inFlight := true }, hlt, hopen, ?_⟩
  exact sends_of_slice h.log hpos hnext (hround ▸ rfl)

/-- Once entries are taken, the leader knows that the two agree as far as they go, and it has sent
    what comes next. -/
theorem Open.accepted (h : d.Open source term progress) (hrequest : d.request = some request)
    (hslice : request.IsSliceOf source) (hterm : request.term = term) (clocks : Clock × Clock)
    {last : Nat} {first : Option Nat}
    (haccepted : (d.follower.log.append request.entries request.prev).1 = .accepted last first) :
    d.Hears clocks true ∧ ∃ matched, min (request.prev.index + 64) source.length ≤ matched ∧
      (d.round clocks).InStep source term matched := by
  obtain ⟨follower, hfollows, hid, hlog, hresult, hround⟩ := h.round_eq hrequest hterm clocks
  obtain ⟨sent, hsent, htakes⟩ := hslice.isCutFrom.exists_takes h.matching
  have hmatching := hlog ▸ htakes.matching hsent h.matching
  obtain ⟨rfl, hagrees⟩ := hlog ▸ hslice.prefix_of_accepted h.matching haccepted h.agrees
  rw [haccepted] at hresult hround
  obtain ⟨leader, hheard, hreplicates, hllog, -⟩ :=
    h.leader.hears_success clocks.2 request ⟨term, true, request.lastIndex⟩ (Nat.le_refl term) rfl
  obtain rfl := h.log
  let matched := max progress.matched request.lastIndex
  have hmatched : matched ≤ d.leader.log.length := Nat.max_le.2 ⟨h.matched, hslice.lastIndex_le⟩
  have hround : d.round clocks = ⟨leader, follower,
      if matched + 1 ≤ d.leader.log.length then some (d.leader.slice term (matched + 1))
      else none⟩ :=
    (hround hheard).trans (congrArg (Dialogue.mk leader follower) (findSome?_entriesFor? ..))
  refine ⟨⟨request, _, hrequest, hresult, rfl⟩, matched,
    Nat.le_trans hslice.le_lastIndex (Nat.le_max_right ..), ?_⟩
  constructor
  · rw [hround]
    exact ⟨hllog, hid ▸ hreplicates, hfollows, hmatching,
      ⟨Nat.le_add_left .., Nat.succ_le_succ hmatched⟩, hmatched, hagrees⟩
  · intro hmore
    exact sends_of_slice rfl (Nat.le_add_left ..) (Nat.le_succ_of_le hmore)
      (by rw [hround]; exact if_pos hmore)
  · intro hdone
    rw [hround]
    exact if_neg (Nat.not_le.2 hdone)

/-- Nothing that comes behind what is known to agree is refused. -/
theorem InStep.accepted {matched : Nat} (h : d.InStep source term matched)
    (hmore : matched + 1 ≤ source.length) (clocks : Clock × Clock) :
    d.Hears clocks true ∧ ∃ later, min (matched + 64) source.length ≤ later ∧
      (d.round clocks).InStep source term later := by
  obtain ⟨request, hrequest, hslice, hterm, hprev⟩ := h.sends hmore
  obtain rfl : request.prev.index = matched := Nat.succ.inj hprev
  cases houtcome : (d.follower.log.append request.entries request.prev).1 with
  | rejected => exact absurd h.isOpen.agrees (hslice.not_prefix_of_rejected houtcome)
  | accepted last first => exact h.isOpen.accepted hrequest hslice hterm clocks houtcome

/-! ## Many rounds -/

/-- The leader goes back until entries are taken, which is after fewer rounds than the next index
    says. -/
theorem Open.exists_accepted {clocks : Nat → Clock × Clock} {n : Nat}
    (h : (d.after clocks n).Open source term progress)
    (hsends : (d.after clocks n).Sends source term progress.next) :
    ∃ refused < progress.next,
      (∀ i < refused, (d.after clocks (n + i)).Retreats (clocks (n + i))) ∧
      (d.after clocks (n + refused)).Hears (clocks (n + refused)) true ∧
      ∃ matched, min 64 source.length ≤ matched ∧
        (d.after clocks (n + refused + 1)).InStep source term matched := by
  induction hnext : progress.next using Nat.strong_induction_on generalizing n progress with
  | h next ih =>
    obtain ⟨request, hrequest, hslice, hterm, hprev⟩ := hsends
    cases houtcome : ((d.after clocks n).follower.log.append request.entries request.prev).1 with
    | rejected =>
      obtain ⟨hretreats, later, hlt, hopen, hsends⟩ :=
        h.refused hrequest hslice hterm hprev (clocks n) houtcome
      have hopen : (d.after clocks (n + 1)).Open source term later := hopen
      obtain ⟨refused, hbound, hrefused, hrest⟩ := ih _ (hnext ▸ hlt) hopen hsends rfl
      rw [Nat.add_right_comm] at hrest
      refine ⟨refused + 1, by omega, Nat.forall_lt_succ_left.2 ⟨hretreats, fun i hi => ?_⟩, hrest⟩
      rw [← Nat.add_assoc, Nat.add_right_comm]
      exact hrefused i hi
    | accepted last first =>
      obtain ⟨hhears, matched, hreach, hinStep⟩ :=
        h.accepted hrequest hslice hterm (clocks n) houtcome
      refine ⟨0, hnext ▸ h.next.1, nofun, hhears, matched, ?_, hinStep⟩
      omega

/-- From then on each round brings 64 entries, or all that are left. -/
theorem InStep.exists_agreed {clocks : Nat → Clock × Clock} {n matched : Nat}
    (h : (d.after clocks n).InStep source term matched) :
    ∃ accepted ≤ (source.length - matched + 63) / 64,
      (∀ i < accepted, (d.after clocks (n + i)).Hears (clocks (n + i)) true) ∧
      (d.after clocks (n + accepted)).InStep source term source.length := by
  induction hleft : source.length - matched using Nat.strong_induction_on
    generalizing n matched with
  | h left ih =>
    rcases Nat.lt_or_ge matched source.length with hmore | hdone
    · obtain ⟨hhears, later, hreach, hinStep⟩ := h.accepted hmore (clocks n)
      have hinStep : (d.after clocks (n + 1)).InStep source term later := hinStep
      obtain ⟨accepted, hbound, haccepted, hagreed⟩ := ih _ (by omega) hinStep rfl
      rw [Nat.add_right_comm] at hagreed
      refine ⟨accepted + 1, by omega, Nat.forall_lt_succ_left.2 ⟨hhears, fun i hi => ?_⟩, hagreed⟩
      rw [← Nat.add_assoc, Nat.add_right_comm]
      exact haccepted i hi
    · obtain rfl : matched = source.length := Nat.le_antisymm h.isOpen.matched hdone
      exact ⟨0, Nat.zero_le _, nofun, h⟩

/-- Whatever the next index is and however far the two logs depart from each other: the follower
    refuses fewer requests than the next index says, with the next index going back each time, and
    then takes all of them, which are no more than it needs for 64 entries at a time. After that no
    request is on its way, the follower has the log of the leader, and the leader knows it. -/
theorem Open.log_repaired (h : d.Open source term progress)
    (hrequest : d.request =
      (d.leader.entriesRequest term d.follower.id progress.next).toOption)
    (clocks : Nat → Clock × Clock) :
    ∃ refused accepted, refused ≤ progress.next - 1 ∧ 1 ≤ accepted ∧
      accepted ≤ max 1 ((source.length + 63) / 64) ∧
      (∀ n < refused, (d.after clocks n).Retreats (clocks n)) ∧
      (∀ n < accepted, (d.after clocks (refused + n)).Hears (clocks (refused + n)) true) ∧
      let final := d.after clocks (refused + accepted)
      final.request = none ∧ final.leader.log = source ∧
        final.progress? = some ⟨source.length + 1, source.length, false⟩ ∧
        final.follower.log.entries.take source.length = source.entries := by
  have hsends : d.Sends source term progress.next := by
    have hnext : progress.next ≤ d.leader.log.length + 1 := h.log.symm ▸ h.next.2
    refine sends_of_slice h.log h.next.1 h.next.2 ?_
    rw [hrequest, d.leader.entriesRequest_eq term d.follower.id hnext]
    rfl
  have hopen : (d.after clocks 0).Open source term progress := h
  obtain ⟨refused, hrefused, hretreats, hhears, matched, hreach, hinStep⟩ :=
    hopen.exists_accepted hsends
  obtain ⟨later, hlater, haccepted, hagreed⟩ := hinStep.exists_agreed
  rw [Nat.zero_add] at hhears hinStep haccepted hagreed
  simp only [Nat.zero_add] at hretreats
  rw [Nat.add_assoc, Nat.add_comm 1] at hagreed
  refine ⟨refused, later + 1, Nat.le_sub_one_of_lt hrefused, Nat.le_add_left .., by omega,
    hretreats, Nat.forall_lt_succ_left.2 ⟨hhears, fun n hn => ?_⟩,
    hagreed.rests (Nat.lt_succ_self _), hagreed.isOpen.log, ?_, ?_⟩
  · rw [Nat.add_comm n, ← Nat.add_assoc]
    exact haccepted n hn
  · have hprogress := hagreed.isOpen.leader.progress
    rwa [decide_eq_false (Nat.not_succ_le_self _)] at hprogress
  · have hagrees := List.prefix_iff_eq_take.1 hagreed.isOpen.agrees
    rw [Log.length, List.take_length] at hagrees
    exact hagrees.symm

/-- A leader of term 2 that takes a follower to be up to date, which has gone on in term 1. -/
def strayed : Dialogue Contents KeyValue.Store where
  leader :=
    .seated 1 sourceLog (.leader ⟨2, .running [(⟨2⟩, ⟨5, 0, true⟩)] 0, false, false⟩)
  follower := .seated 2 staleLog .follower
  request := some ⟨2, ⟨1⟩, ⟨2, 4⟩, [], 0⟩

/-- Three rounds have changed nothing, and one request is enough in the end. -/
theorem Open.log_repaired_strayed :
    strayed.Open sourceLog 2 ⟨5, 0, true⟩ ∧
      (strayed.after (fun n => (⟨n, 1⟩, ⟨n, 1⟩)) 3).follower.log = staleLog ∧
      ∃ refused ≤ 4, ∃ accepted, 1 ≤ accepted ∧ accepted ≤ 1 ∧
        (strayed.after (fun n => (⟨n, 1⟩, ⟨n, 1⟩)) (refused + accepted)).follower.log.entries.take 4 =
          sourceLog.entries := by
  have hopen : strayed.Open sourceLog 2 ⟨5, 0, true⟩ := by
    have hmatching : Matching staleLog.entries sourceLog.entries := by
      unfold Matching
      decide
    exact ⟨rfl, ⟨rfl, rfl, by decide⟩, ⟨rfl, rfl, by decide, Contents.works _⟩, hmatching,
      by decide, by decide, by decide⟩
  obtain ⟨refused, accepted, hrefused, hpos, haccepted, -, -, -, -, -, hagrees⟩ :=
    hopen.log_repaired rfl fun n => (⟨n, 1⟩, ⟨n, 1⟩)
  exact ⟨hopen, by decide, refused, hrefused, accepted, hpos, haccepted, hagrees⟩

end Dialogue

end Quorum
