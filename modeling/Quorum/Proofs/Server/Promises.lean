import Quorum.KeyValue.Store
import Quorum.Proofs.Server.Lifetime

set_option autoImplicit false

/-! # No promise before it is kept

What a server tells a candidate or a leader is a promise, and it has to hold over a restart. So
whatever a reply says is on the disk by the time it is given: its term, a vote that it grants, and
the entries that it acknowledges. This is so in every state that a server can come to and for every
request, also if the server has the entries already and writes nothing, and whatever writes have
failed before. -/

namespace Quorum

/-! ## Promises -/

/-- A ballot bears out what a reply says to a candidate. -/
structure VoteReply.BackedBy (reply : VoteReply) (request : VoteRequest) (ballot : Ballot) :
    Prop where
  term : reply.term = ballot.term
  granted : reply.granted →
    reply.term = request.term ∧ ballot = ⟨request.term, some request.candidate⟩

/-- What a disk holds bears out what a reply says to a leader. -/
structure AppendReply.BackedBy (reply : AppendReply) (request : AppendRequest)
    (stored : Contents) : Prop where
  term : reply.term = stored.ballot.term
  success : reply.success → reply.term = request.term ∧
    reply.matched = request.prev.index + request.entries.length ∧
    ∃ log : Log, log.entries = stored.log ∧ log.Covers request.entries request.prev

namespace Server

variable {σ μ : Type} [LawfulStorage σ]

/-- What a server has on its disk. -/
abbrev stored (s : Server σ μ) : Contents := contents s.durable.disk

/-! ## Votes -/

theorem decideVote_backed {s : Server σ μ} {request : VoteRequest} {reply : VoteReply}
    (hok : (s.decideVote request).result = .ok reply) :
    reply.BackedBy request (s.decideVote request).state.durable.ballot := by
  unfold Server.decideVote at hok ⊢
  split at hok
  · next hlt =>
    cases hok
    rw [if_pos hlt]
    exact ⟨rfl, nofun⟩
  · next hge =>
    rw [if_neg hge]
    have hgrants := s.durable.grants_grantVote request.term request.candidate request.last
    generalize s.durable.grantVote request.term request.candidate request.last = granted
      at hgrants hok ⊢
    cases hgrants with
    | refuses =>
      cases hok
      exact ⟨rfl, nofun⟩
    | repeats hterm hvote =>
      cases hok
      refine ⟨rfl, fun _ => ⟨hterm.symm, ?_⟩⟩
      show s.durable.ballot = _
      rw [hterm, ← hvote]
    | done disk hterm _ _ _ =>
      cases hok
      refine ⟨rfl, fun _ => ⟨hterm.symm, ?_⟩⟩
      rw [hterm]
      rfl
    | fails => cases hok

theorem answerVote_backed {clock : Clock} {s : Server σ μ} {request : VoteRequest}
    {reply : VoteReply} (hok : (s.answerVote clock request).result = .ok reply) :
    reply.BackedBy request (s.answerVote clock request).state.durable.ballot := by
  have hbacked : (s.decideVote request).result = .ok reply →
      reply.BackedBy request (s.decideVote request).state.durable.ballot := decideVote_backed
  unfold Server.answerVote at hok ⊢
  split at hok
  · generalize s.decideVote request = decided at hbacked hok ⊢
    obtain ⟨_ | reply, s'⟩ := decided
    · cases hok
    · cases hok
      have hbacked := hbacked rfl
      show reply.BackedBy request (if reply.granted then _ else s').durable.ballot
      split <;> exact hbacked
  · exact hbacked hok
  · cases hok

theorem requestVote_backed {clock : Clock} {s : Server σ μ} {request : VoteRequest}
    {reply : VoteReply} (hok : (s.requestVote clock request).result = .ok reply) :
    reply.BackedBy request (s.requestVote clock request).state.durable.ballot := by
  unfold Server.requestVote at hok ⊢
  generalize s.stepDown clock request.term = stepped at hok ⊢
  obtain ⟨_ | _, s'⟩ := stepped
  · cases hok
  · exact answerVote_backed hok

/-! ## Entries -/

theorem refuseEntries_backed {s : Server σ μ} (h : s.durable.Coherent) (request : AppendRequest) :
    (s.refuseEntries s.term).BackedBy request s.stored :=
  ⟨(congrArg Ballot.term h.ballot).symm, nofun⟩

variable [StateMachine μ]

/-- A leader is told that its entries were taken only if the durable state has accepted them. -/
theorem takeEntries_reply {clock : Clock} {s : Server σ μ} {request : AppendRequest}
    {reply : AppendReply} (hterm : request.term = s.term)
    (hok : (s.takeEntries clock request).result = .ok reply) :
    reply.term = s.term ∧ (reply.success → ∃ first,
      (s.durable.append request.entries request.prev).result =
        .ok (.accepted reply.matched first)) := by
  have htakes := takesEntries_takeEntries clock request s
  generalize s.takeEntries clock request = taken at htakes hok
  cases htakes with
  | outdated hlt => omega
  | fails => cases hok
  | refuses =>
    cases hok
    exact ⟨rfl, nofun⟩
  | keeps _ happend =>
    cases hok
    exact ⟨rfl, fun _ => ⟨_, by rw [happend]; rfl⟩⟩
  | commits _ happend =>
    generalize Server.applyEntries (_ : Server σ μ) = applied at hok
    obtain ⟨_ | _, _⟩ := applied <;> cases hok
    exact ⟨rfl, fun _ => ⟨_, by rw [happend]; rfl⟩⟩

theorem takeEntries_backed {clock : Clock} {s : Server σ μ} (h : s.durable.Coherent)
    {request : AppendRequest} (hle : request.term ≤ s.term) {reply : AppendReply}
    (hok : (s.takeEntries clock request).result = .ok reply) :
    reply.BackedBy request (s.takeEntries clock request).state.stored := by
  rcases Nat.lt_or_eq_of_le hle with hlt | hterm
  · unfold Server.takeEntries at hok ⊢
    rw [if_pos hlt] at hok ⊢
    cases hok
    exact refuseEntries_backed h request
  · obtain ⟨hreply, hsuccess⟩ := takeEntries_reply hterm hok
    have hcoherent := (evolves_takeEntries clock request s).coherent h
    refine ⟨?_, fun htaken => ?_⟩
    · rw [hreply, hcoherent.ballot]
      exact (takeEntries_term clock request s).symm
    · obtain ⟨first, haccepted⟩ := hsuccess htaken
      obtain ⟨hmatched, hstored⟩ := h.stored_of_accepted haccepted
      rw [stored, takeEntries_durable clock request s (Nat.le_of_eq hterm.symm)]
      exact ⟨hreply.trans hterm.symm, hmatched, hstored⟩

omit [StateMachine μ] in
/-- Who has given up an election for a term has reached it. -/
theorem term_le_of_concede {clock : Clock} {term : Nat} {s : Server σ μ}
    (hok : (s.concede clock term).result = .ok ()) : term ≤ (s.concede clock term).state.term := by
  rw [concede_result] at hok
  rw [Server.term, concede_durable]
  cases hadopted : (s.durable.adoptTerm term).result with
  | ok newer => exact DurableState.term_le_of_adoptTerm hadopted
  | error e => rw [hadopted] at hok; cases hok

theorem answerEntries_backed {clock : Clock} {s : Server σ μ} (h : s.durable.Coherent)
    {request : AppendRequest} (hle : request.term ≤ s.term) {reply : AppendReply}
    (hok : (s.answerEntries clock request).result = .ok reply) :
    reply.BackedBy request (s.answerEntries clock request).state.stored := by
  unfold Server.answerEntries at hok ⊢
  split at hok
  · exact takeEntries_backed h hle hok
  · split at hok
    · next hlt =>
      cases hok
      rw [if_pos hlt]
      exact refuseEntries_backed h request
    · next hge =>
      rw [if_neg hge]
      have hevolves := evolves_concede clock request.term s
      have hreached : (s.concede clock request.term).result = .ok () →
          request.term ≤ (s.concede clock request.term).state.term := term_le_of_concede
      generalize s.concede clock request.term = conceded at hevolves hreached hok ⊢
      obtain ⟨_ | _, s'⟩ := conceded
      · cases hok
      · exact takeEntries_backed (hevolves.coherent h) (hreached rfl) hok
  · cases hok

theorem appendEntries_backed {clock : Clock} {s : Server σ μ} (h : s.durable.Coherent)
    {request : AppendRequest} {reply : AppendReply}
    (hok : (s.appendEntries clock request).result = .ok reply) :
    reply.BackedBy request (s.appendEntries clock request).state.stored := by
  unfold Server.appendEntries at hok ⊢
  have hevolves := evolves_stepDown clock request.term s
  have hreached : ∀ newer, (s.stepDown clock request.term).result = .ok newer →
      request.term ≤ (s.stepDown clock request.term).state.term :=
    fun _ => term_le_of_stepDown clock request.term s
  generalize s.stepDown clock request.term = stepped at hevolves hreached hok ⊢
  obtain ⟨_ | newer, s'⟩ := stepped
  · cases hok
  · exact answerEntries_backed (hevolves.coherent h) (hreached newer rfl) hok

/-- Whatever a reachable server replies to a candidate or a leader is on its disk by then. -/
theorem replies_backed {s : Server σ μ} (h : s.Reachable) (clock : Clock) :
    (∀ request reply, (s.requestVote clock request).result = .ok reply →
      reply.BackedBy request (s.requestVote clock request).state.stored.ballot) ∧
    ∀ request reply, (s.appendEntries clock request).result = .ok reply →
      reply.BackedBy request (s.appendEntries clock request).state.stored := by
  have hcoherent := h.coherent
  refine ⟨fun request reply hok => ?_, fun request reply hok => appendEntries_backed hcoherent hok⟩
  rw [((evolves_requestVote clock request s).coherent hcoherent).ballot]
  exact requestVote_backed hok

/-- Server 1 of three, just started with an empty disk some of whose next writes fail. -/
def newcomer (fails : List Bool) : Server (Fated Contents) KeyValue.Store where
  config := .standard ⟨1⟩ ([1, 2, 3].map fun n => ⟨⟨n⟩, .v4 ⟨127, 0, 0, 1⟩ 0⟩)
  peers := [⟨2⟩, ⟨3⟩]
  durable := .unreliable fails
  volatile := .initial
  machine := .empty
  timer := (⟨0, 1⟩ : Clock).restart .idle
  timeouts := []
  role := .follower
  retired := []
  isShutDown := false

theorem reachable_newcomer (fails : List Bool) : (newcomer fails).Reachable :=
  .start (show Server.start ⟨0, 1⟩ (newcomer fails).config [⟨2⟩, ⟨3⟩] ⟨.blank, fails⟩ .empty =
    .ok (newcomer fails) from rfl)

/-- A leader of term 1 sends its first entry. -/
def firstEntry : AppendRequest := ⟨1, ⟨2⟩, .origin, [⟨1, 1, []⟩], 0⟩

/-- The server once it has tried to take the first entry and its disk has refused. -/
def hindered : Server (Fated Contents) KeyValue.Store :=
  ((newcomer [false, true]).step ⟨0, 1⟩ (.appendEntries firstEntry)).server

/-- At the second attempt the entry is taken, and a candidate of the next term gets the vote. -/
theorem replies_backed_hindered :
    hindered.stored = ⟨⟨1, none⟩, []⟩ ∧
      (hindered.appendEntries ⟨0, 1⟩ firstEntry).result = .ok ⟨1, true, 1⟩ ∧
      AppendReply.BackedBy ⟨1, true, 1⟩ firstEntry
        (hindered.appendEntries ⟨0, 1⟩ firstEntry).state.stored ∧
      (hindered.requestVote ⟨0, 1⟩ ⟨2, ⟨3⟩, .origin⟩).result = .ok ⟨2, true⟩ ∧
      VoteReply.BackedBy ⟨2, true⟩ ⟨2, ⟨3⟩, .origin⟩
        (hindered.requestVote ⟨0, 1⟩ ⟨2, ⟨3⟩, .origin⟩).state.stored.ballot := by
  have hreachable : hindered.Reachable := .step _ _ (reachable_newcomer _)
  obtain ⟨hvotes, hentries⟩ := replies_backed hreachable ⟨0, 1⟩
  exact ⟨by decide, rfl, hentries _ _ rfl, rfl, hvotes _ _ rfl⟩

end Server

end Quorum
