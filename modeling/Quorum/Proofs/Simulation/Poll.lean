import Mathlib.Logic.Relation
import Quorum.Proofs.Rpc.Tally
import Quorum.Proofs.Simulation.Passing

set_option autoImplicit false

/-! # What a round of votes shows

A candidate asks its peers at once, each of which does what its script says, and looks at its tally
from time to time. The calls end one after the other, as time passes, those that end at one instant
in any order. Whatever this order is, once all that ends up to an instant has ended, the tally shows
what the scripts say for this instant, and nothing else.

So a peer is counted once, when its reply is there, when it fails or when the call is given up,
whatever comes first; and it is only by a reply that there is a vote or a term. -/

namespace Quorum.Simulation

/-! ## What a script says -/

/-- The reply to a request for a vote of the term `requested`, sent at the instant `sent`, if it is
    there at the instant `t` and has come before the call is given up after `timeout`. -/
def ScriptItem.replyBy? (item : ScriptItem) (requested sent timeout t : Nat) : Option VoteReply :=
  match item with
  | .reply delay rule accepts _ =>
      if sent + delay ≤ t ∧ delay < timeout then some ⟨rule.term requested, accepts⟩ else none
  | _ => none

/-- Whether the peer has replied or failed at the instant `t`, or the call is given up by then. -/
def ScriptItem.isOverBy (item : ScriptItem) (sent timeout t : Nat) : Bool :=
  item.delay?.any (sent + · ≤ t) || sent + timeout ≤ t

/-- What a peer does with the next request for a vote. -/
def Wire.answer (wire : Wire) (request : VoteRequest) (peer : ServerId) : ScriptItem :=
  ((wire.script peer).use (.vote request)).1

/-- What the scripts of some peers say about a request for a vote that is sent now, as a tally shows
    it at the instant `t`. -/
structure Wire.Foretells (wire : Wire) (peers : List ServerId) (timeout : Nat)
    (request : VoteRequest) (t : Nat) (tally : Tally) : Prop where
  /-- A vote for each peer whose reply is there and grants it. -/
  votes : tally.votes = peers.countP fun peer =>
    ((wire.answer request peer).replyBy? request.term wire.now timeout t).any (·.granted)
  /-- The largest term of the replies that are there. -/
  largestTerm : tally.largestTerm = ((peers.filterMap fun peer =>
    (wire.answer request peer).replyBy? request.term wire.now timeout t).map (·.term)).max?.getD 0
  /-- Each peer is counted once. -/
  completed : tally.completed = peers.countP fun peer =>
    (wire.answer request peer).isOverBy wire.now timeout t
  /-- All calls are over if each peer has replied or failed or was given up. -/
  isComplete : tally.isComplete ↔
    ∀ peer ∈ peers, (wire.answer request peer).isOverBy wire.now timeout t

/-! ## Calls to scripted peers -/

/-- The call by which a peer is asked for its vote. -/
def Wire.callFor (wire : Wire) (timeout : Nat) (request : VoteRequest) (peer : ServerId) :
    Flight :=
  { caller := request.candidate
    callee := peer
    deadline := wire.now + timeout
    stage :=
      match (wire.answer request peer).outcome? peer (.vote request) with
      | none => .silent (.vote request)
      | some (delay, outcome) => .inbound (wire.now + delay) outcome
    since := wire.now }

/-- How a call for a vote ends. -/
def Flight.result (flight : Flight) : Except CallError VoteReply :=
  match flight.arrival with
  | .ended _ (.vote _ result) => result
  | _ => .error (.timeout flight.callee)

theorem Wire.arrival_callFor (wire : Wire) (timeout : Nat) (request : VoteRequest)
    (peer : ServerId) :
    (wire.callFor timeout request peer).arrival =
      .ended (wire.callFor timeout request peer)
        (.vote request (wire.callFor timeout request peer).result) := by
  unfold Flight.result callFor
  cases wire.answer request peer with
  | silent => rfl
  | fail delay failing =>
    by_cases hdelay : delay ≤ timeout <;>
      simp [ScriptItem.outcome?, Flight.arrival, hdelay, Request.failed, Stage.request]
  | reply delay rule accepts matched =>
    by_cases hdelay : delay ≤ timeout <;>
      simp [ScriptItem.outcome?, Flight.arrival, hdelay, Request.failed, Stage.request]

/-- A call is over when it is due. -/
theorem Wire.dueAt_callFor_le_iff (wire : Wire) (timeout : Nat) (request : VoteRequest)
    (peer : ServerId) (t : Nat) :
    (wire.callFor timeout request peer).dueAt ≤ t ↔
      (wire.answer request peer).isOverBy wire.now timeout t := by
  unfold callFor ScriptItem.isOverBy
  cases wire.answer request peer with
  | silent => simp [ScriptItem.outcome?, Flight.dueAt, ScriptItem.delay?]
  | fail delay failing =>
    simp only [ScriptItem.outcome?, Flight.dueAt, ScriptItem.delay?, Option.any_some,
      Bool.or_eq_true, decide_eq_true_eq]
    omega
  | reply delay rule accepts matched =>
    simp only [ScriptItem.outcome?, Flight.dueAt, ScriptItem.delay?, Option.any_some,
      Bool.or_eq_true, decide_eq_true_eq]
    omega

/-- A call that is not given up ends with the reply of the peer, if there is one. -/
theorem Wire.toOption_result_callFor (wire : Wire) (timeout : Nat) (request : VoteRequest)
    (peer : ServerId) :
    (wire.callFor timeout request peer).result.toOption =
      match wire.answer request peer with
      | .reply delay rule accepts _ =>
          if delay ≤ timeout then some ⟨rule.term request.term, accepts⟩ else none
      | _ => none := by
  unfold Flight.result callFor
  cases wire.answer request peer with
  | silent => rfl
  | fail delay failing =>
    by_cases hdelay : delay ≤ timeout <;>
      simp [ScriptItem.outcome?, Flight.arrival, hdelay, Request.failed, Stage.request,
        Except.toOption]
  | reply delay rule accepts matched =>
    by_cases hdelay : delay ≤ timeout <;>
      simp [ScriptItem.outcome?, Flight.arrival, hdelay, Request.failed, Stage.request,
        Except.toOption]

/-- A reply is there when the call has ended and was not given up. -/
theorem Wire.replyBy?_eq (wire : Wire) (timeout : Nat) (request : VoteRequest) (peer : ServerId)
    (hdelay : (wire.answer request peer).delay? ≠ some timeout) (t : Nat) :
    (wire.answer request peer).replyBy? request.term wire.now timeout t =
      if (wire.callFor timeout request peer).dueAt ≤ t then
        (wire.callFor timeout request peer).result.toOption
      else none := by
  simp only [dueAt_callFor_le_iff, toOption_result_callFor]
  cases hitem : wire.answer request peer with
  | silent => exact (ite_self none).symm
  | fail delay failing => exact (ite_self none).symm
  | reply delay rule accepts matched =>
    have hne : delay ≠ timeout := by
      rw [hitem] at hdelay
      exact fun heq => hdelay (congrArg some heq)
    have hiff : wire.now + delay ≤ t ∧ delay < timeout ↔
        (wire.now + delay ≤ t ∨ wire.now + timeout ≤ t) ∧ delay ≤ timeout := by omega
    simp only [ScriptItem.replyBy?, ScriptItem.isOverBy, ScriptItem.delay?, Option.any_some,
      Bool.or_eq_true, decide_eq_true_eq, hiff, ite_and]

/-! ## Asking -/

/-- To ask one peer changes nothing of what the others do. -/
theorem Wire.callFor_sendToScript (wire : Wire) (timeout : Nat) (request : VoteRequest)
    {peer other : ServerId} (h : other ≠ peer) :
    (wire.sendToScript request.candidate timeout ⟨peer, .vote request⟩).callFor timeout request
      other = wire.callFor timeout request other := by
  have hscript : (wire.sendToScript request.candidate timeout ⟨peer, .vote request⟩).script other =
      wire.script other :=
    (wire.script_setScript peer other _).trans (if_neg h)
  simp only [callFor, answer, hscript]
  rfl

theorem Wire.flights_sendToScript (wire : Wire) (timeout : Nat) (request : VoteRequest)
    (peer : ServerId) :
    (wire.sendToScript request.candidate timeout ⟨peer, .vote request⟩).flights =
      wire.flights ++ [wire.callFor timeout request peer] := rfl

/-- To ask peers puts one call to each of them on its way. -/
theorem Poll.flights_ask (wire : Wire) {peers : List ServerId} (hpeers : peers.Nodup)
    (timeout : Nat) (request : VoteRequest) :
    (Poll.ask wire peers timeout request).wire.flights =
      wire.flights ++ peers.map (wire.callFor timeout request) := by
  simp only [ask]
  induction peers generalizing wire with
  | nil => exact (List.append_nil _).symm
  | cons peer peers ih =>
    obtain ⟨hpeer, hrest⟩ := List.nodup_cons.1 hpeers
    have hsame : peers.map ((wire.sendToScript request.candidate timeout
        ⟨peer, .vote request⟩).callFor timeout request) =
        peers.map (wire.callFor timeout request) := by
      refine List.map_congr_left fun other hother => wire.callFor_sendToScript timeout request ?_
      rintro rfl
      exact hpeer hother
    rw [List.foldl_cons, ih _ hrest, hsame, wire.flights_sendToScript, List.append_assoc]
    rfl

/-! ## Rounds in any order -/

/-- What happens in a round of votes after the peers were asked. -/
inductive Poll.Step (poll : Poll) : Poll → Prop
  /-- A call ends, and none of the others ends before. -/
  | land {flight : Flight} {others : List Flight} {outcome : Outcome} :
      poll.wire.flights.Perm (flight :: others) →
      (∀ other ∈ others, flight.dueAt ≤ other.dueAt) →
      flight.arrival = .ended flight outcome →
      Step poll ⟨(poll.wire.land flight others).2, countOutcome poll.tally outcome⟩
  /-- Time passes, but no further than to where the next call ends. -/
  | wait {limit : Nat} :
      (∀ flight ∈ poll.wire.flights, limit ≤ flight.dueAt) →
      Step poll ⟨poll.wire.waitUntil limit, poll.tally⟩

/-- A round of votes goes on. -/
abbrev Poll.Becomes : Poll → Poll → Prop := Relation.ReflTransGen Poll.Step

/-- It is the instant `t`, and all calls have ended that end up to then. -/
def Poll.IsAt (poll : Poll) (t : Nat) : Prop :=
  poll.wire.now = t ∧ ∀ flight ∈ poll.wire.flights, t < flight.dueAt

/-- Nothing of a tally is taken back. -/
theorem Poll.Step.below {poll later : Poll} (h : poll.Step later) :
    poll.tally.Below later.tally := by
  cases h with
  | wait hlimit => exact .refl _
  | @land flight others outcome hperm hfirst harrival =>
    cases outcome with
    | vote request result => exact poll.tally.below_count result
    | append request result => exact .refl _

theorem Poll.Becomes.below {poll later : Poll} (h : poll.Becomes later) :
    poll.tally.Below later.tally := by
  induction h with
  | refl => exact .refl _
  | tail _ hstep ih => exact ih.trans hstep.below

/-! ## What has been counted -/

/-- Of some calls for a vote, those that are over have been counted. -/
def Poll.HasCounted (calls : List Flight) (poll : Poll) : Prop :=
  ∃ counted, calls.Perm (counted ++ poll.wire.flights) ∧
    (∀ flight ∈ counted, flight.dueAt ≤ poll.wire.now) ∧
    poll.tally = (counted.map Flight.result).foldl Tally.count (.start calls.length)

theorem Poll.HasCounted.step {calls : List Flight} {request : VoteRequest}
    (hcalls : ∀ flight ∈ calls, flight.arrival = .ended flight (.vote request flight.result))
    {poll later : Poll} (h : poll.HasCounted calls) (hstep : poll.Step later) :
    later.HasCounted calls := by
  obtain ⟨counted, hperm, hover, htally⟩ := h
  cases hstep with
  | wait hlimit =>
    exact ⟨counted, hperm, fun flight hmem =>
      Nat.le_trans (hover flight hmem) (Nat.le_max_left ..), htally⟩
  | @land flight others outcome hland hfirst harrival =>
    have hnext : calls.Perm ((counted ++ [flight]) ++ others) := by
      rw [List.append_assoc]
      exact hperm.trans (hland.append_left counted)
    have hmem : flight ∈ calls := hnext.mem_iff.2 (by simp)
    obtain rfl : outcome = .vote request flight.result := by
      simpa using harrival.symm.trans (hcalls flight hmem)
    refine ⟨counted ++ [flight], ?_, ?_, ?_⟩
    · rw [Wire.flights_land]
      exact hnext
    · rw [Wire.now_land]
      intro call hcall
      rcases List.mem_append.1 hcall with hold | hnew
      · exact Nat.le_trans (hover call hold) (Nat.le_max_left ..)
      · rw [List.mem_singleton.1 hnew]
        exact Nat.le_max_right ..
    · rw [List.map_append, List.foldl_append, ← htally]
      rfl

theorem Poll.HasCounted.becomes {calls : List Flight} {request : VoteRequest}
    (hcalls : ∀ flight ∈ calls, flight.arrival = .ended flight (.vote request flight.result))
    {poll later : Poll} (h : poll.HasCounted calls) (hlater : poll.Becomes later) :
    later.HasCounted calls := by
  induction hlater with
  | refl => exact h
  | tail _ hstep ih => exact ih.step hcalls hstep

/-- At the instant `t` those calls are over that end up to then. -/
theorem Poll.HasCounted.perm_filter {calls : List Flight} {poll : Poll} {t : Nat}
    (h : poll.HasCounted calls) (ht : poll.IsAt t) :
    ∃ counted : List Flight, counted.Perm (calls.filter (·.dueAt ≤ t)) ∧
      poll.tally = (counted.map Flight.result).foldl Tally.count (.start calls.length) := by
  obtain ⟨counted, hperm, hover, htally⟩ := h
  obtain ⟨rfl, hleft⟩ := ht
  refine ⟨counted, ?_, htally⟩
  have hall : counted.filter (·.dueAt ≤ poll.wire.now) = counted :=
    List.filter_eq_self.2 fun flight hmem => decide_eq_true (hover flight hmem)
  have hnone : poll.wire.flights.filter (·.dueAt ≤ poll.wire.now) = [] :=
    List.filter_eq_nil_iff.2 fun flight hmem => by simpa using hleft flight hmem
  have hfilter := (hperm.filter (·.dueAt ≤ poll.wire.now)).symm
  rwa [List.filter_append, hall, hnone, List.append_nil] at hfilter

/-! ## Letting time pass -/

/-- When nothing ends any more up to an instant, time passes up to it. -/
theorem Poll.becomes_waitUntil (poll : Poll) {limit : Nat} (hnow : poll.wire.now ≤ limit)
    (hflights : ∀ flight ∈ poll.wire.flights, limit < flight.dueAt) :
    poll.Becomes ⟨poll.wire.waitUntil limit, poll.tally⟩ ∧
      IsAt ⟨poll.wire.waitUntil limit, poll.tally⟩ limit :=
  ⟨.single (.wait fun flight hmem => Nat.le_of_lt (hflights flight hmem)), Nat.max_eq_right hnow,
    hflights⟩

/-- A tally after some calls have ended. -/
def countEnded (tally : Tally) (ended : List (ServerId × Outcome)) : Tally :=
  ended.foldl (fun tally (_, outcome) => countOutcome tally outcome) tally

/-- To let time pass is one way for a round of votes to go on. -/
theorem Poll.becomes_pass (poll : Poll) {limit : Nat} (hnow : poll.wire.now ≤ limit)
    (hcalls : ∀ flight ∈ poll.wire.flights, ∃ outcome, flight.arrival = .ended flight outcome) :
    poll.Becomes (poll.pass limit) ∧ (poll.pass limit).IsAt limit := by
  refine endings_induction
    (motive := fun wire ended last => ∀ tally, Poll.Becomes ⟨wire, tally⟩
      ⟨last, countEnded tally ended⟩ ∧ Poll.IsAt ⟨last, countEnded tally ended⟩ limit)
    (fun wire hwire hflights tally => becomes_waitUntil ⟨wire, tally⟩ hwire hflights) ?_
    poll.wire hnow hcalls poll.tally
  intro wire flight others outcome ended last hnext hrest tally
  obtain ⟨hbecomes, hat⟩ := hrest (countOutcome tally outcome)
  exact ⟨.head (.land hnext.perm hnext.first hnext.arrival) hbecomes, hat⟩

/-! ## What the tally shows -/

/-- What is counted of the calls to some peers at an instant is what their scripts say. -/
theorem Wire.foretells_of_hasCounted (wire : Wire) {peers : List ServerId} {timeout : Nat}
    {request : VoteRequest}
    (hdelay : ∀ peer ∈ peers, (wire.answer request peer).delay? ≠ some timeout) {poll : Poll}
    {t : Nat} (h : poll.HasCounted (peers.map (wire.callFor timeout request)))
    (ht : poll.IsAt t) : wire.Foretells peers timeout request t poll.tally := by
  obtain ⟨counted, hperm, htally⟩ := h.perm_filter ht
  rw [Tally.foldl_count, List.length_map] at htally
  -- The replies that were counted, in the order of the peers instead of that of the calls' ends.
  have hreplies : (Tally.replies (counted.map Flight.result)).Perm (peers.filterMap fun peer =>
      (wire.answer request peer).replyBy? request.term wire.now timeout t) := by
    refine ((hperm.map Flight.result).filterMap Except.toOption).trans (List.Perm.of_eq ?_)
    rw [List.filterMap_map, List.filterMap_filter, List.filterMap_map]
    refine List.filterMap_congr fun peer hpeer => ?_
    rw [wire.replyBy?_eq timeout request peer (hdelay peer hpeer)]
    simp only [Function.comp_apply, decide_eq_true_eq]
  have hcompleted : counted.length = peers.countP fun peer =>
      (wire.answer request peer).isOverBy wire.now timeout t := by
    rw [hperm.length_eq, ← List.countP_eq_length_filter, List.countP_map]
    refine List.countP_congr fun peer _ => ?_
    rw [← dueAt_callFor_le_iff]
    exact decide_eq_true_iff
  refine ⟨?_, ?_, ?_, ?_⟩
  · rw [htally, hreplies.countP_eq, List.countP_filterMap]
    refine (Nat.zero_add _).trans (List.countP_congr fun peer _ => ?_)
    cases (wire.answer request peer).replyBy? request.term wire.now timeout t <;> simp
  · rw [htally, ← Tally.foldl_max_zero]
    exact List.Perm.foldl_eq (hreplies.map VoteReply.term) 0
  · rw [htally, ← hcompleted, List.length_map]
    exact Nat.zero_add _
  · rw [htally, ← List.countP_eq_length, ← hcompleted]
    have hle : counted.length ≤ peers.length := hcompleted ▸ List.countP_le_length
    simp only [Tally.isComplete, Tally.start, List.length_map, Nat.zero_add, decide_eq_true_eq]
    omega

/-- Whatever order the calls end in, a tally shows at each instant what the scripts say, it never
    takes anything back, and to let time pass is one way for a round to go on. -/
theorem Poll.foretells (wire : Wire) (hwire : wire.flights = []) (peers : List ServerId)
    (hpeers : peers.Nodup) (timeout : Nat) (request : VoteRequest)
    (hdelay : ∀ peer ∈ peers, (wire.answer request peer).delay? ≠ some timeout) (poll : Poll)
    (hpoll : (Poll.ask wire peers timeout request).Becomes poll) :
    (∀ t, poll.IsAt t → wire.Foretells peers timeout request t poll.tally) ∧
      (∀ later, poll.Becomes later → poll.tally.Below later.tally) ∧
      ∀ limit, poll.wire.now ≤ limit →
        poll.Becomes (poll.pass limit) ∧ (poll.pass limit).IsAt limit := by
  have hcalls : ∀ flight ∈ peers.map (wire.callFor timeout request),
      flight.arrival = .ended flight (.vote request flight.result) := by
    intro flight hflight
    obtain ⟨peer, -, rfl⟩ := List.mem_map.1 hflight
    exact wire.arrival_callFor timeout request peer
  have hask : (Poll.ask wire peers timeout request).HasCounted
      (peers.map (wire.callFor timeout request)) := by
    refine ⟨[], ?_, List.forall_mem_nil _, ?_⟩
    · rw [flights_ask wire hpeers timeout request, hwire]
      exact List.Perm.refl _
    · rw [List.length_map]
      rfl
  have hcounted := hask.becomes hcalls hpoll
  refine ⟨fun t ht => wire.foretells_of_hasCounted hdelay hcounted ht, fun later => Becomes.below,
    fun limit hlimit => ?_⟩
  obtain ⟨counted, hperm, -, -⟩ := hcounted
  exact poll.becomes_pass hlimit fun flight hmem =>
    ⟨_, hcalls flight (hperm.mem_iff.2 (List.mem_append_right _ hmem))⟩

/-- Three peers: one grants its vote, one cannot be reached, and one refuses in a newer term. -/
def threePeers : Wire :=
  .initial
    [(⟨2⟩, ⟨[.reply 10 (.plus 0) true none], []⟩), (⟨3⟩, ⟨[.fail 20 .unreachable], []⟩),
      (⟨4⟩, ⟨[.reply 30 (.exactly 5) false none], []⟩)]

/-- Two of them are counted after 20 ms, and the third as well after 30 ms. -/
theorem Poll.foretells_threePeers :
    let poll := (Poll.ask threePeers [⟨2⟩, ⟨3⟩, ⟨4⟩] 100 ⟨1, ⟨1⟩, ⟨0, 0⟩⟩).pass 20
    threePeers.Foretells [⟨2⟩, ⟨3⟩, ⟨4⟩] 100 ⟨1, ⟨1⟩, ⟨0, 0⟩⟩ 20 poll.tally ∧
      threePeers.Foretells [⟨2⟩, ⟨3⟩, ⟨4⟩] 100 ⟨1, ⟨1⟩, ⟨0, 0⟩⟩ 30 (poll.pass 30).tally ∧
      poll.tally = ⟨3, 1, 1, 2⟩ ∧ (poll.pass 30).tally = ⟨3, 1, 5, 3⟩ := by
  intro poll
  have hround := Poll.foretells threePeers rfl [⟨2⟩, ⟨3⟩, ⟨4⟩] (by decide) 100
    ⟨1, ⟨1⟩, ⟨0, 0⟩⟩ (by decide)
  obtain ⟨hbecomes, hat⟩ := (hround _ .refl).2.2 20 (by decide)
  obtain ⟨hshown, -, hpass⟩ := hround poll hbecomes
  obtain ⟨hlater, hatLater⟩ := hpass 30 (by decide)
  exact ⟨hshown 20 hat, (hround _ (hbecomes.trans hlater)).1 30 hatLater, by decide, by decide⟩

end Quorum.Simulation
