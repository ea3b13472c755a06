import Quorum.Proofs.Server.Cases
import Quorum.Proofs.Server.CommitRule

set_option autoImplicit false

/-! # The books of a leader

What a leader knows of a peer is moved by values that the peer chooses, and its own log may be
longer by now than when it asked. The next index may even fall behind the one that is known to
match. What holds all the same: the next index stays within the log or right behind it, the matching
index within the log, and a peer is marked as in flight exactly while a call to it is out. Then
every request is a slice of the log, and a turn cannot fail. -/

namespace Quorum

/-! ## Calls that are out -/

/-- Taking back one of several calls, no two of which go to the same server. -/
theorem mem_targets_erase {awaited : List Call} (hnodup : (awaited.map Call.target).Nodup)
    {call : Call} (hcall : call ∈ awaited) (id : ServerId) :
    id ∈ (awaited.erase call).map Call.target ↔
      id ∈ awaited.map Call.target ∧ id ≠ call.target := by
  have hperm := (List.perm_cons_erase hcall).map Call.target
  rw [List.map_cons] at hperm
  obtain ⟨hnew, -⟩ := List.nodup_cons.1 (hperm.nodup_iff.1 hnodup)
  rw [hperm.mem_iff, List.mem_cons]
  constructor
  · intro hmem
    exact ⟨Or.inr hmem, fun heq => hnew (heq ▸ hmem)⟩
  · rintro ⟨rfl | hmem, hne⟩
    · exact absurd rfl hne
    · exact hmem

/-- A call that sends entries up to no later index than the given one. -/
def Call.SendsUpTo (last : Nat) (call : Call) : Prop :=
  ∃ request, call.request = .append request ∧ request.lastIndex ≤ last

/-- What a leader knows of its peers fits a log that ends at `last` and the calls that are out. -/
structure Ledger (last : Nat) (peers : List ServerId) (awaited : List Call)
    (known : List (ServerId × Progress)) : Prop where
  peers : known.map Prod.fst = peers
  next : ∀ peer ∈ known, 1 ≤ peer.2.next ∧ peer.2.next ≤ last + 1
  matched : ∀ peer ∈ known, peer.2.matched ≤ last
  inFlight : ∀ peer ∈ known, peer.2.inFlight ↔ peer.1 ∈ awaited.map Call.target
  /-- No two calls go to the same peer. -/
  targets : (awaited.map Call.target).Nodup
  sent : ∀ call ∈ awaited, call.SendsUpTo last

namespace Ledger

variable {last last' : Nat} {peers : List ServerId} {awaited : List Call}
  {known : List (ServerId × Progress)}

/-- A leader that has not sent anything yet. -/
theorem initial (last : Nat) (peers : List ServerId) :
    Ledger last peers [] (peers.map fun peer => (peer, ⟨last + 1, 0, false⟩)) := by
  constructor
  · rw [List.map_map]
    exact List.map_id peers
  · intro peer hpeer
    obtain ⟨id, -, rfl⟩ := List.mem_map.1 hpeer
    exact ⟨Nat.le_add_left 1 last, Nat.le_refl _⟩
  · intro peer hpeer
    obtain ⟨id, -, rfl⟩ := List.mem_map.1 hpeer
    exact Nat.zero_le last
  · intro peer hpeer
    obtain ⟨id, -, rfl⟩ := List.mem_map.1 hpeer
    simp
  · exact List.nodup_nil
  · exact List.forall_mem_nil _

/-- The log may grow. -/
theorem mono (h : Ledger last peers awaited known) (hle : last ≤ last') :
    Ledger last' peers awaited known where
  peers := h.peers
  next peer hpeer :=
    ⟨(h.next peer hpeer).1, Nat.le_trans (h.next peer hpeer).2 (Nat.succ_le_succ hle)⟩
  matched peer hpeer := Nat.le_trans (h.matched peer hpeer) hle
  inFlight := h.inFlight
  targets := h.targets
  sent call hcall := by
    obtain ⟨request, hrequest, hlast⟩ := h.sent call hcall
    exact ⟨request, hrequest, Nat.le_trans hlast hle⟩

theorem mem_of_lookup {peer : ServerId} {progress : Progress}
    (hlookup : known.lookup peer = some progress) : (peer, progress) ∈ known := by
  obtain ⟨before, rest, rfl, -⟩ := List.lookup_eq_some_iff.1 hlookup
  simp

/-- The outcome of a call to a stranger, of which there are none, would change nothing. -/
theorem ignore (h : Ledger last peers awaited known) {call : Call} (hcall : call ∈ awaited)
    (hlookup : known.lookup call.target = none) :
    Ledger last peers (awaited.erase call) known where
  peers := h.peers
  next := h.next
  matched := h.matched
  inFlight peer hpeer := by
    have hne : peer.1 ≠ call.target := by
      have := List.lookup_eq_none_iff.1 hlookup peer hpeer
      exact fun heq => by simp [heq] at this
    rw [h.inFlight peer hpeer, mem_targets_erase h.targets hcall]
    exact (and_iff_left hne).symm
  targets := h.targets.sublist ((List.erase_sublist ..).map _)
  sent other hother := h.sent other (List.mem_of_mem_erase hother)

/-- What is learned from the outcome of a call is put in the place of what was known, and the peer
    may be called again. -/
theorem hear (h : Ledger last peers awaited known) {call : Call} (hcall : call ∈ awaited)
    (progress : Progress) (hnext : 1 ≤ progress.next ∧ progress.next ≤ last + 1)
    (hmatched : progress.matched ≤ last) {calls : List Call}
    (hcalls : progress.inFlight = false ∧ calls = [] ∨
      progress.inFlight = true ∧ ∃ again, calls = [again] ∧ again.target = call.target ∧
        again.SendsUpTo last) :
    Ledger last peers (awaited.erase call ++ calls)
      (Server.setProgress known call.target progress) := by
  have herase := mem_targets_erase h.targets hcall
  -- a peer is either the one that was called, or still what it was
  have hset : ∀ peer ∈ Server.setProgress known call.target progress,
      peer = (call.target, progress) ∨ peer ∈ known ∧ peer.1 ≠ call.target := by
    intro peer hpeer
    obtain ⟨⟨id, old⟩, hold, rfl⟩ := List.mem_map.1 hpeer
    simp only
    split
    · next heq => exact Or.inl (by rw [heq])
    · next hne => exact Or.inr ⟨hold, hne⟩
  have htargets : ∀ id, id ∈ calls.map Call.target ↔ progress.inFlight ∧ id = call.target := by
    rcases hcalls with ⟨hflight, rfl⟩ | ⟨hflight, again, rfl, htarget, -⟩
    · simp [hflight]
    · simp [hflight, htarget]
  constructor
  · rw [← h.peers, Server.setProgress, List.map_map]
    refine List.map_congr_left fun peer _ => ?_
    show (if peer.1 = call.target then (peer.1, progress) else (peer.1, peer.2)).1 = peer.1
    split <;> rfl
  · intro peer hpeer
    rcases hset peer hpeer with rfl | ⟨hold, -⟩
    · exact hnext
    · exact h.next peer hold
  · intro peer hpeer
    rcases hset peer hpeer with rfl | ⟨hold, -⟩
    · exact hmatched
    · exact h.matched peer hold
  · intro peer hpeer
    rw [List.map_append, List.mem_append, htargets, herase]
    rcases hset peer hpeer with rfl | ⟨hold, hne⟩
    · simp
    · simp [h.inFlight peer hold, hne]
  · rw [List.map_append, List.nodup_append']
    refine ⟨h.targets.sublist ((List.erase_sublist ..).map _), ?_, fun id hid hid' => ?_⟩
    · rcases hcalls with ⟨-, rfl⟩ | ⟨-, again, rfl, -⟩
      · exact List.nodup_nil
      · exact List.nodup_singleton _
    · exact ((herase id).1 hid).2 ((htargets id).1 hid').2
  · intro other hother
    rcases List.mem_append.1 hother with hold | hnew
    · exact h.sent other (List.mem_of_mem_erase hold)
    · rcases hcalls with ⟨-, rfl⟩ | ⟨-, again, rfl, -, hsends⟩
      · cases hnew
      · rw [List.mem_singleton.1 hnew]
        exact hsends

/-- Peers to which no call is out are sent something. -/
theorem send (h : Ledger last peers awaited known) (hnodup : peers.Nodup)
    {wants : Progress → Bool} (hwants : ∀ progress, wants progress → progress.inFlight = false)
    {make : ServerId × Progress → Call} (htarget : ∀ peer, (make peer).target = peer.1)
    (hsends : ∀ peer ∈ known, (make peer).SendsUpTo last) :
    Ledger last peers (awaited ++ (known.filter (wants ·.2)).map make)
      (known.map fun peer =>
        if wants peer.2 then (peer.1, { peer.2 with inFlight := true }) else peer) := by
  have htargets : ((known.filter (wants ·.2)).map make).map Call.target =
      (known.filter (wants ·.2)).map Prod.fst := by
    rw [List.map_map]
    exact List.map_congr_left fun peer _ => htarget peer
  have hkeys : (known.map Prod.fst).Nodup := h.peers ▸ hnodup
  constructor
  · rw [← h.peers, List.map_map]
    refine List.map_congr_left fun peer _ => ?_
    show (if wants peer.2 then (peer.1, { peer.2 with inFlight := true }) else peer).1 = peer.1
    split <;> rfl
  · intro peer hpeer
    obtain ⟨old, hold, rfl⟩ := List.mem_map.1 hpeer
    split <;> exact h.next old hold
  · intro peer hpeer
    obtain ⟨old, hold, rfl⟩ := List.mem_map.1 hpeer
    split <;> exact h.matched old hold
  · intro peer hpeer
    obtain ⟨old, hold, rfl⟩ := List.mem_map.1 hpeer
    rw [List.map_append, List.mem_append, htargets]
    split
    · next hwanted =>
      exact iff_of_true rfl (Or.inr (List.mem_map.2 ⟨old, List.mem_filter.2 ⟨hold, hwanted⟩, rfl⟩))
    · next hunwanted =>
      rw [h.inFlight old hold, or_iff_left]
      -- nobody else has the same identity
      intro hmem
      obtain ⟨other, hother, heq⟩ := List.mem_map.1 hmem
      obtain ⟨hother, hwanted⟩ := List.mem_filter.1 hother
      have hsame := List.inj_on_of_nodup_map hkeys hother hold heq
      exact hunwanted (hsame ▸ hwanted)
  · rw [List.map_append, htargets, List.nodup_append']
    refine ⟨h.targets, hkeys.sublist ((List.filter_sublist ..).map _), fun id hid hid' => ?_⟩
    obtain ⟨peer, hpeer, rfl⟩ := List.mem_map.1 hid'
    obtain ⟨hmem, hwanted⟩ := List.mem_filter.1 hpeer
    have hflight := (h.inFlight peer hmem).2 hid
    rw [hwants peer.2 hwanted] at hflight
    cases hflight
  · intro call hcall
    rcases List.mem_append.1 hcall with hold | hnew
    · exact h.sent call hold
    · obtain ⟨peer, hpeer, rfl⟩ := List.mem_map.1 hnew
      exact hsends peer (List.mem_filter.1 hpeer).1

end Ledger

/-! ## Slices of the log -/

/-- A request that carries at most 64 entries, just as they follow each other in the log, with the
    position before them. -/
structure AppendRequest.IsSliceOf (request : AppendRequest) (log : Log) : Prop where
  prev : log.termAt request.prev.index = some request.prev.term
  entries : request.entries = (log.entries.drop request.prev.index).take 64

theorem AppendRequest.IsSliceOf.lastIndex_le {request : AppendRequest} {log : Log}
    (h : request.IsSliceOf log) : request.lastIndex ≤ log.length := by
  have hprev := ((log.termAt_eq_some_iff ..).1 h.prev).1
  have hcount : request.entries.length ≤ log.length - request.prev.index := by
    rw [h.entries, List.length_take, List.length_drop]
    exact Nat.min_le_right ..
  unfold AppendRequest.lastIndex
  omega

namespace Server

variable {σ μ : Type}

/-- A call that sends a slice of the server's log, in a term and with all that goes with it. -/
def SendsSlice (s : Server σ μ) (term : Nat) (call : Call) : Prop :=
  ∃ request, call.request = .append request ∧ request.IsSliceOf s.log ∧ request.term = term ∧
    request.leader = s.id ∧ request.commit = s.volatile.committed

theorem SendsSlice.sendsUpTo {s : Server σ μ} {term : Nat} {call : Call}
    (h : s.SendsSlice term call) : call.SendsUpTo s.log.length := by
  obtain ⟨request, hrequest, hslice, -⟩ := h
  exact ⟨request, hrequest, hslice.lastIndex_le⟩

/-- The request with the entries from `next` on. -/
def slice (s : Server σ μ) (term next : Nat) : AppendRequest where
  term
  leader := s.id
  prev := ⟨lastTerm (s.log.entries.take (next - 1)), next - 1⟩
  entries := (s.log.entriesFrom next).take batchLimit
  commit := s.volatile.committed

theorem isSliceOf_slice (s : Server σ μ) (term : Nat) {next : Nat} (h : next ≤ s.log.length + 1) :
    (s.slice term next).IsSliceOf s.log :=
  ⟨(s.log.termAt_eq_some_iff ..).2 ⟨by simp only [slice]; omega, rfl⟩, rfl⟩

theorem sendsSlice_slice (s : Server σ μ) (term : Nat) (peer : ServerId) {next : Nat}
    (h : next ≤ s.log.length + 1) : s.SendsSlice term ⟨peer, .append (s.slice term next)⟩ :=
  ⟨_, rfl, s.isSliceOf_slice term h, rfl, rfl, rfl⟩

/-- As long as the next index is not past the end of the log, there is a request to send. -/
theorem entriesRequest_eq (s : Server σ μ) (term : Nat) (peer : ServerId) {next : Nat}
    (h : next ≤ s.log.length + 1) : s.entriesRequest term peer next = .ok (s.slice term next) := by
  have hprev : s.log.termAt (next - 1) = some (lastTerm (s.log.entries.take (next - 1))) :=
    (s.log.termAt_eq_some_iff ..).2 ⟨by omega, rfl⟩
  unfold Server.entriesRequest
  rw [hprev]
  rfl

theorem dispatch_eq (s : Server σ μ) (term : Nat) (wants : Progress → Bool)
    {known : List (ServerId × Progress)} (h : ∀ peer ∈ known, peer.2.next ≤ s.log.length + 1) :
    s.dispatch term wants known =
      ⟨(known.filter (wants ·.2)).map fun peer => ⟨peer.1, .append (s.slice term peer.2.next)⟩,
        known.map fun peer =>
          if wants peer.2 then (peer.1, { peer.2 with inFlight := true }) else peer,
        none⟩ := by
  induction known with
  | nil => rfl
  | cons peer rest ih =>
    obtain ⟨peer, progress⟩ := peer
    obtain ⟨hpeer, hrest⟩ := List.forall_mem_cons.1 h
    rw [Server.dispatch, ih hrest, s.entriesRequest_eq term peer hpeer, List.filter_cons,
      List.map_cons]
    cases wants progress <;> rfl

theorem dispatchTo_eq (s : Server σ μ) (term : Nat) (known : List (ServerId × Progress))
    (peer : ServerId) {progress : Progress} (h : progress.next ≤ s.log.length + 1) :
    s.dispatchTo term known peer progress =
      ⟨[⟨peer, .append (s.slice term progress.next)⟩],
        setProgress known peer { progress with inFlight := true }, none⟩ := by
  unfold Server.dispatchTo
  rw [s.entriesRequest_eq term peer h]

/-! ## Committing -/

/-- What is applied is committed, and the log reaches that far. -/
structure Reaches (s : Server σ μ) : Prop where
  applied_le : s.volatile.applied ≤ s.volatile.committed
  committed_le : s.volatile.committed ≤ s.log.length

variable [StateMachine μ] {s : Server σ μ}

/-- A leader that has all of what is committed never fails to commit more. -/
theorem Reaches.commitMajority (h : s.Reaches) (term : Nat) (known : List (ServerId × Progress)) :
    (s.commitMajority term known).result = .ok () ∧
      (s.commitMajority term known).state.Reaches := by
  rw [s.commitMajority_eq h.applied_le]
  refine ⟨rfl, ?_⟩
  simp only [Attempt.ok]
  split
  · next hcommits => exact ⟨Nat.le_refl _, ((s.log.termAt_eq_some_iff ..).1 hcommits.2).1⟩
  · exact h

end Server

/-! ## Turns -/

/-- The branches that a leader's loop may take while calls are out, with the calls that are still
    out then. An outcome is that of one of the calls, and may be anything. -/
inductive Offered (awaited : List Call) : Branch → List Call → Prop where
  | stop : Offered awaited .stop awaited
  | beat : Offered awaited .beat awaited
  | wake : Offered awaited .wake awaited
  | outcome (call : Call) {request : AppendRequest} (hcall : call ∈ awaited)
      (hrequest : call.request = .append request) (result : Except CallError AppendReply) :
      Offered awaited (.outcome (request.report call.target result)) (awaited.erase call)

/-- The books of a leader fit a log that ends at `last` and the calls that are out. -/
def Leader.Books (leader : Leader) (last : Nat) (peers : List ServerId) (awaited : List Call) :
    Prop :=
  match leader.phase with
  | .starting => awaited = []
  | .running known _ => Ledger last peers awaited known
  | .ended => False

section

variable {leader : Leader} {last : Nat} {peers : List ServerId} {awaited : List Call}

theorem Leader.books_of_starting (h : leader.phase = .starting) :
    leader.Books last peers awaited ↔ awaited = [] := by
  unfold Leader.Books
  rw [h]

theorem Leader.books_of_running {known : List (ServerId × Progress)} {nextBeat : Nat}
    (h : leader.phase = .running known nextBeat) :
    leader.Books last peers awaited ↔ Ledger last peers awaited known := by
  unfold Leader.Books
  rw [h]

theorem Leader.Books.not_ended (h : leader.Books last peers awaited) : leader.phase ≠ .ended := by
  intro hended
  unfold Leader.Books at h
  rwa [hended] at h

/-- The log may grow. -/
theorem Leader.Books.mono (h : leader.Books last peers awaited) {last' : Nat}
    (hle : last ≤ last') : leader.Books last' peers awaited := by
  cases hphase : leader.phase with
  | starting => exact (books_of_starting hphase).2 ((books_of_starting hphase).1 h)
  | running known nextBeat =>
    exact (books_of_running hphase).2 (((books_of_running hphase).1 h).mono hle)
  | ended => exact absurd hphase h.not_ended

end

variable {σ μ : Type}

/-- A loop goes on, or ends because it was told to, or because of a reply with a newer term. If that
    term cannot be adopted, it is the disk's fault. -/
inductive Server.EndsOnly [Storage σ] (s : Server σ μ) (leader : Leader) :
    Branch → Verdict → Prop where
  | goesOn (branch : Branch) : EndsOnly s leader branch .goesOn
  | halts (hstopped : leader.stopped) : EndsOnly s leader .stop .halts
  | stepsDown {report : AppendReport} {reply : AppendReply} (hresult : report.result = .ok reply)
      (hnewer : leader.term < reply.term)
      (hadopts : ∀ e, (s.durable.adoptTerm reply.term).result = .error e →
        ∃ fault, e = .storage fault) :
      EndsOnly s leader (.outcome report) (.stepsDown reply.term)

/-- It does not matter whether the loop was woken. -/
theorem Server.EndsOnly.awake [Storage σ] {s : Server σ μ} {leader : Leader} {awake : Bool}
    {branch : Branch} {verdict : Verdict} (h : s.EndsOnly { leader with awake } branch verdict) :
    s.EndsOnly leader branch verdict := by
  cases h with
  | goesOn => exact .goesOn branch
  | halts hstopped => exact .halts hstopped
  | stepsDown hresult hnewer hadopts => exact .stepsDown hresult hnewer hadopts

/-- A turn of a loop whose books are right: it sends slices of the log, ends for no other reason
    than it may, and leaves the books right. -/
structure Leader.Proceeds [Storage σ] (leader : Leader) (s : Server σ μ) (branch : Branch)
    (rest : List Call) (turn : Turn σ μ) : Prop where
  calls : ∀ call ∈ turn.calls, s.SendsSlice leader.term call
  verdict : s.EndsOnly leader branch turn.verdict
  reaches : turn.server.Reaches
  books : turn.verdict = .goesOn → turn.leader.Books s.log.length s.peers (rest ++ turn.calls)

namespace Server

variable [Storage σ] [StateMachine μ] {s : Server σ μ} {leader : Leader} {branch : Branch}
  {awaited rest : List Call} {known : List (ServerId × Progress)} {nextBeat : Nat}

omit [StateMachine μ] in
/-- A turn that sends what it sends and goes on. -/
theorem proceeds_running (h : s.Reaches) {calls : List Call}
    (hcalls : ∀ call ∈ calls, s.SendsSlice leader.term call)
    (hledger : Ledger s.log.length s.peers (rest ++ calls) known) :
    leader.Proceeds s branch rest
      ⟨calls, { leader with phase := .running known nextBeat }, s, .goesOn⟩ :=
  ⟨hcalls, .goesOn branch, h, fun _ => hledger⟩

theorem proceeds_settle (h : s.Reaches) {calls : List Call}
    (hcalls : ∀ call ∈ calls, s.SendsSlice leader.term call)
    (hledger : Ledger s.log.length s.peers (rest ++ calls) known) :
    leader.Proceeds s branch rest (s.settle leader ⟨calls, known, none⟩ nextBeat) := by
  obtain ⟨hresult, hreaches⟩ := h.commitMajority leader.term known
  unfold Server.settle
  simp only [hresult]
  exact ⟨hcalls, .goesOn branch, hreaches, fun _ => hledger⟩

/-- Whatever the outcome of a call is, the books stay right. -/
theorem proceeds_handleReport (h : s.Reaches) (hledger : Ledger s.log.length s.peers awaited known)
    {call : Call} {request : AppendRequest} (hcall : call ∈ awaited)
    (hrequest : call.request = .append request) (result : Except CallError AppendReply) :
    leader.Proceeds s (.outcome (request.report call.target result)) (awaited.erase call)
      (s.handleReport leader known nextBeat (request.report call.target result)) := by
  have hnone : ∀ call ∈ ([] : List Call), s.SendsSlice leader.term call := List.forall_mem_nil _
  -- the last index that was sent is still in the log
  obtain ⟨request', hrequest', hlast⟩ := hledger.sent call hcall
  obtain rfl : request = request' := Request.append.inj (hrequest.symm.trans hrequest')
  have hreport : (request.report call.target result).lastIndex = request.lastIndex := rfl
  unfold Server.handleReport
  simp only
  split
  · next hlookup =>
    refine proceeds_running h hnone ?_
    rw [List.append_nil]
    exact hledger.ignore hcall hlookup
  · next progress hlookup =>
    have hmem := Ledger.mem_of_lookup hlookup
    have hnext := hledger.next _ hmem
    have hmatched := hledger.matched _ hmem
    simp only at hnext hmatched
    split
    · exact proceeds_running h hnone
        (hledger.hear hcall { progress with inFlight := false } hnext hmatched
          (Or.inl ⟨rfl, rfl⟩))
    · next reply hresult =>
      split
      · next hnewer =>
        refine ⟨hnone, .stepsDown hresult hnewer fun e he => ?_, h, nofun⟩
        rcases s.durable.adoptTerm_cases reply.term with
          ⟨-, heq⟩ | ⟨-, ⟨disk, heq⟩ | ⟨fault, disk, heq⟩⟩ <;> rw [heq] at he <;> cases he
        exact ⟨fault, rfl⟩
      · split
        · -- the peer has taken the entries
          have hreach : max progress.matched request.lastIndex ≤ s.log.length :=
            Nat.max_le.2 ⟨hmatched, hlast⟩
          have hbounds : 1 ≤ (Progress.advance progress request.lastIndex).next ∧
              (Progress.advance progress request.lastIndex).next ≤ s.log.length + 1 :=
            ⟨Nat.le_add_left .., Nat.succ_le_succ hreach⟩
          rw [hreport]
          split
          · rw [s.dispatchTo_eq leader.term known _ hbounds.2]
            have hsends := s.sendsSlice_slice leader.term call.target hbounds.2
            exact proceeds_settle h (List.forall_mem_singleton.2 hsends)
              (hledger.hear hcall
                { Progress.advance progress request.lastIndex with inFlight := true } hbounds hreach
                (Or.inr ⟨rfl, _, rfl, rfl, hsends.sendsUpTo⟩))
          · exact proceeds_settle h hnone
              (hledger.hear hcall _ hbounds hreach (Or.inl ⟨rfl, rfl⟩))
        · -- it has refused them, and may have given any hint
          have hbounds : 1 ≤ (Progress.backOff progress reply.matched).next ∧
              (Progress.backOff progress reply.matched).next ≤ s.log.length + 1 := by
            unfold Progress.backOff
            simp only
            omega
          rw [s.dispatchTo_eq leader.term known _ hbounds.2]
          have hsends := s.sendsSlice_slice leader.term call.target hbounds.2
          exact proceeds_running h (List.forall_mem_singleton.2 hsends)
            (hledger.hear hcall { Progress.backOff progress reply.matched with inFlight := true }
              hbounds hmatched (Or.inr ⟨rfl, _, rfl, rfl, hsends.sendsUpTo⟩))

/-- Sending to peers to which no call is out. -/
theorem proceeds_dispatch (h : s.Reaches) (hpeers : s.peers.Nodup)
    (hledger : Ledger s.log.length s.peers awaited known) {wants : Progress → Bool}
    (hwants : ∀ progress, wants progress → progress.inFlight = false) :
    leader.Proceeds s branch awaited
      (s.settle leader (s.dispatch leader.term wants known) nextBeat) := by
  have hsends : ∀ peer ∈ known,
      s.SendsSlice leader.term ⟨peer.1, .append (s.slice leader.term peer.2.next)⟩ :=
    fun peer hpeer => s.sendsSlice_slice leader.term peer.1 (hledger.next peer hpeer).2
  rw [s.dispatch_eq leader.term wants fun peer hpeer => (hledger.next peer hpeer).2]
  refine proceeds_settle h (fun call hcall => ?_)
    (hledger.send hpeers hwants (fun peer => rfl) fun peer hpeer => (hsends peer hpeer).sendsUpTo)
  obtain ⟨peer, hpeer, rfl⟩ := List.mem_map.1 hcall
  exact hsends peer (List.mem_filter.1 hpeer).1

/-- A turn of a loop whose books are right. -/
theorem proceeds_leaderTurn (h : s.Reaches) (hpeers : s.peers.Nodup)
    (hbooks : leader.Books s.log.length s.peers awaited) (clock : Clock)
    (hoffered : Offered awaited branch rest) :
    leader.Proceeds s branch rest (s.leaderTurn clock branch leader) := by
  have hnone : ∀ call ∈ ([] : List Call), s.SendsSlice leader.term call := List.forall_mem_nil _
  unfold Server.leaderTurn
  cases hphase : leader.phase with
  | ended => exact absurd hphase hbooks.not_ended
  | starting =>
    have hawaited : awaited = [] := (Leader.books_of_starting hphase).1 hbooks
    have hrest : rest = [] := by
      cases hoffered with
      | outcome call hcall =>
        rw [hawaited] at hcall
        cases hcall
      | _ => exact hawaited
    have hindex : s.log.last.index = s.log.length := s.log.contiguous.index_endOf
    refine proceeds_running h hnone ?_
    rw [hrest, Server.initialProgress, hindex]
    exact Ledger.initial s.log.length s.peers
  | running known nextBeat =>
    have hledger : Ledger s.log.length s.peers awaited known :=
      (Leader.books_of_running hphase).1 hbooks
    have hstays : ∀ {branch verdict}, s.EndsOnly leader branch verdict →
        leader.Proceeds s branch awaited ⟨[], leader, s, verdict⟩ := fun hverdict => by
      refine ⟨hnone, hverdict, h, fun _ => ?_⟩
      rw [List.append_nil]
      exact hbooks
    cases hoffered with
    | stop =>
      simp only
      split
      · next hstopped => exact hstays (.halts hstopped)
      · exact hstays (.goesOn _)
    | beat =>
      refine proceeds_dispatch h hpeers hledger fun progress hwants => ?_
      simpa using hwants
    | wake =>
      simp only
      split
      · have hproceeds : ({ leader with awake := false } : Leader).Proceeds s .wake awaited
            (s.settle { leader with awake := false }
              (s.dispatch leader.term
                (fun progress => !progress.inFlight && progress.next ≤ s.log.last.index) known)
              nextBeat) :=
          proceeds_dispatch h hpeers hledger fun progress hwants => by
            rw [Bool.and_eq_true, Bool.not_eq_true'] at hwants
            exact hwants.1
        exact ⟨hproceeds.calls, hproceeds.verdict.awake, hproceeds.reaches, hproceeds.books⟩
      · exact hstays (.goesOn _)
    | outcome call hcall hrequest result =>
      exact proceeds_handleReport h hledger hcall hrequest result

end Server

end Quorum
