import Quorum.Proofs.Server.Modes

set_option autoImplicit false

/-! # Every entry is applied once

Two rules raise the committed index: a leader counts copies, a follower is told by whoever claims to
lead. After either of them the server applies what it can. Nothing is assumed of the disk, of those
who send requests, or of the replies, so a server may be told to commit what it does not have, and
the part of its log that it has applied may be cut off and replaced. The indices never go back all
the same, and what the machine is given is entry 1, entry 2, and so on.

To speak of the calls of a machine, and not only of what becomes of it, `Recorder` is a machine that
keeps a list of them. -/

namespace Quorum

variable {σ μ : Type}

/-! ## Recorded calls -/

/-- A machine with a list of all calls that it was given, each with its index and command. -/
structure Recorder (μ : Type) where
  machine : μ
  calls : List (Nat × Bytes)
  deriving DecidableEq, Repr

/-- Whatever the machine answers, the call is recorded. -/
instance [StateMachine μ] : StateMachine (Recorder μ) where
  apply recorder index command :=
    (StateMachine.apply recorder.machine index command).within fun machine =>
      ⟨machine, recorder.calls ++ [(index, command)]⟩

/-- The call with which an entry is applied. -/
def Entry.asCall (entry : Entry) : Nat × Bytes := (entry.index, entry.command)

theorem calls_feed [StateMachine μ] (recorder : Recorder μ) (entries : List Entry) :
    (feed recorder entries).calls = recorder.calls ++ entries.map Entry.asCall := by
  induction entries generalizing recorder with
  | nil => exact (List.append_nil _).symm
  | cons entry rest ih =>
    rw [feed, List.foldl_cons, List.map_cons, List.append_cons]
    exact ih _

/-- The calls for a part of a log carry its indices. -/
theorem Log.map_asCall (log : Log) (first last : Nat) :
    (((log.entries.take last).drop first).map Entry.asCall).map Prod.fst =
      List.range' (first + 1) (min last log.length - first) := by
  have hcontiguous : log.entries.map Entry.index = List.range' 1 log.entries.length :=
    log.contiguous
  rw [List.map_map, List.map_drop, List.map_take]
  show ((log.entries.map Entry.index).take last).drop first = _
  rw [hcontiguous]
  refine List.ext_getElem ?_ fun place _ _ => ?_
  · simp [Log.length]
  · simp only [List.getElem_drop, List.getElem_take, List.getElem_range']
    omega

/-! ## What a step does to the indices -/

namespace Server

variable [StateMachine μ] {s s' s'' : Server σ μ}

/-- The indices have not gone back, and what is applied is committed and was there to be applied. -/
structure Feeds (s s' : Server σ μ) : Prop extends Hands s s' where
  committed_le : s.volatile.committed ≤ s'.volatile.committed
  applied_le_committed : s'.volatile.applied ≤ s'.volatile.committed
  available : s.volatile.applied < s'.volatile.applied → s'.volatile.applied ≤ s'.log.length

theorem Quiet.feeds (h : Quiet s s') (hs : s.volatile.applied ≤ s.volatile.committed) :
    Feeds s s' :=
  { h.hands with
    committed_le := Nat.le_of_eq h.committed.symm
    applied_le_committed := by rw [h.applied, h.committed]; exact hs
    available := fun hlt => absurd h.applied (Nat.ne_of_gt hlt) }

theorem Quiet.trans_feeds (h : Quiet s s') (h' : Feeds s' s'') : Feeds s s'' :=
  { h.trans_hands h'.toHands with
    committed_le := h.committed ▸ h'.committed_le
    applied_le_committed := h'.applied_le_committed
    available := h.applied ▸ h'.available }

theorem Feeds.trans_quiet (h : Feeds s s') (h' : Quiet s' s'') (hlog : s''.log = s'.log) :
    Feeds s s'' :=
  { h.toHands.trans_quiet h' hlog with
    committed_le := h'.committed ▸ h.committed_le
    applied_le_committed := by rw [h'.applied, h'.committed]; exact h.applied_le_committed
    available := by rw [h'.applied, hlog]; exact h.available }

/-- Applying after the committed index was raised. -/
theorem feeds_commitTo (hs : s.volatile.applied ≤ s.volatile.committed) {index : Nat}
    (hle : s.volatile.committed ≤ index) :
    Feeds s
      ({ s with volatile := { s.volatile with committed := index } } :
        Server σ μ).applyEntries.state := by
  have happlied : s.volatile.applied ≤ index := Nat.le_trans hs hle
  rw [Server.applyEntries, applyCommitted_eq s.log { s.volatile with committed := index } s.machine
    happlied]
  refine ⟨⟨Nat.le_max_left .., ?_⟩, hle, ?_, ?_⟩
  · -- as far as entries are taken, it does not matter that the log may end before the index
    refine congrArg (feed s.machine) ?_
    show (s.log.entries.take index).drop s.volatile.applied =
      (s.log.entries.take (max s.volatile.applied (min index s.log.length))).drop s.volatile.applied
    rw [List.drop_take, List.drop_take, List.take_eq_take_iff, List.length_drop]
    show min _ (s.log.length - _) = min _ (s.log.length - _)
    omega
  · show max s.volatile.applied (min index s.log.length) ≤ index
    omega
  · show s.volatile.applied < max s.volatile.applied (min index s.log.length) →
      max s.volatile.applied (min index s.log.length) ≤ s.log.length
    omega

/-! ## Leaders -/

theorem feeds_commitMajority (hs : s.volatile.applied ≤ s.volatile.committed) (term : Nat)
    (peers : List (ServerId × Progress)) : Feeds s (s.commitMajority term peers).state := by
  have hrefl : Feeds s s := (Quiet.refl s).feeds hs
  unfold Server.commitMajority
  simp only
  generalize majorityIndex (s.log.last.index :: peers.map (·.2.matched)) = index
  split
  · exact hrefl
  · next hnew =>
    split
    · exact hrefl
    · rcases s.volatile.raiseCommitted_cases index with hraised | ⟨e, hraised⟩
      · simp only [hraised, Attempt.ok]
        have hanswer := Attempt.andThen_answer
          (({ s with volatile := { s.volatile with committed := index } } :
            Server σ μ).applyEntries) ()
        unfold Attempt.ok at hanswer
        rw [hanswer]
        exact feeds_commitTo hs (Nat.le_of_not_le hnew)
      · simp only [hraised]
        exact hrefl

theorem feeds_leaderTurn (hs : s.volatile.applied ≤ s.volatile.committed) (clock : Clock)
    (branch : Branch) (leader : Leader) : Feeds s (s.leaderTurn clock branch leader).server := by
  rcases leaderTurn_server clock branch leader s with heq | ⟨known, heq⟩ <;> rw [heq]
  · exact (Quiet.refl s).feeds hs
  · exact feeds_commitMajority hs leader.term known

variable [Storage σ]

theorem feeds_runLeader (hs : s.volatile.applied ≤ s.volatile.committed) (clock : Clock)
    (branch : Branch) (leader : Leader) : Feeds s (s.runLeader clock branch leader).2 := by
  have hturn := feeds_leaderTurn hs clock branch leader
  unfold Server.runLeader
  generalize s.leaderTurn clock branch leader = turn at hturn ⊢
  have hrole : ∀ role, Feeds s { turn.server with role } := fun role =>
    hturn.trans_quiet (quiet_role turn.server role) rfl
  simp only
  split
  · exact hrole _
  · exact hrole _
  · exact (hrole _).trans_quiet (quiet_recover clock _) (recover_log clock _)
  · next term _ =>
    have hstepped := (hrole (.leader { turn.leader with phase := .ended })).trans_quiet
      (quiet_stepDown clock term _) (stepDown_log clock term _)
    split
    · exact hstepped
    · generalize ({ turn.server with role := .leader { turn.leader with phase := .ended } } :
        Server σ μ).stepDown clock term = stepped at hstepped ⊢
      have hstopped := hstepped.trans_quiet
        (quiet_role stepped.state stepped.state.role.stop) rfl
      exact hstopped.trans_quiet (quiet_recover clock _) (recover_log clock _)

theorem feeds_runRetired (hs : s.volatile.applied ≤ s.volatile.committed) (clock : Clock)
    (branch : Branch) (place : Nat) : Feeds s (s.runRetired clock branch place).2 := by
  unfold Server.runRetired
  split
  · next leader _ =>
    have hturn := feeds_leaderTurn hs clock branch leader
    generalize s.leaderTurn clock branch leader = turn at hturn ⊢
    have hretired : ∀ retired, Feeds s { turn.server with retired } := fun retired =>
      hturn.trans_quiet ⟨rfl, rfl, rfl⟩ rfl
    simp only
    split
    · exact hretired _
    · exact hretired _
    · exact hretired _
    · exact (hretired _).trans_quiet (quiet_stepDown clock _ _) (stepDown_log clock _ _)
  · exact Quiet.feeds ⟨rfl, rfl, rfl⟩ hs
  · exact (Quiet.refl s).feeds hs

/-! ## Followers -/

/-- A follower commits what it is told to, if that is an increase, whether it has it or not. -/
theorem feeds_takeEntries (hs : s.volatile.applied ≤ s.volatile.committed) (clock : Clock)
    (request : AppendRequest) : Feeds s (s.takeEntries clock request).state := by
  have htakes := takesEntries_takeEntries clock request s
  generalize s.takeEntries clock request = taken at htakes ⊢
  cases htakes with
  | outdated => exact (Quiet.refl s).feeds hs
  | @commits durable _ _ _ _ _ hcommit hs' =>
    have hheard : (s.heard clock request.leader durable).volatile.applied ≤
        (s.heard clock request.leader durable).volatile.committed := hs
    rw [hs']
    exact (quiet_heard s clock _ _).trans_feeds (feeds_commitTo hheard (Nat.le_of_lt hcommit))
  | _ => exact (quiet_heard s clock _ _).feeds hs

theorem feeds_answerEntries (hs : s.volatile.applied ≤ s.volatile.committed) (clock : Clock)
    (request : AppendRequest) : Feeds s (s.answerEntries clock request).state := by
  have hrefl : Feeds s s := (Quiet.refl s).feeds hs
  unfold Server.answerEntries
  split
  · exact feeds_takeEntries hs clock request
  · split
    · exact hrefl
    · have hconceded := quiet_concede clock request.term s
      generalize s.concede clock request.term = conceded at hconceded ⊢
      obtain ⟨_ | _, s'⟩ := conceded
      · exact hconceded.feeds hs
      · refine hconceded.trans_feeds (feeds_takeEntries ?_ clock request)
        exact (hconceded.feeds hs).applied_le_committed
  · exact hrefl

theorem feeds_appendEntries (hs : s.volatile.applied ≤ s.volatile.committed) (clock : Clock)
    (request : AppendRequest) : Feeds s (s.appendEntries clock request).state := by
  have hstepped := quiet_stepDown clock request.term s
  unfold Server.appendEntries
  generalize s.stepDown clock request.term = stepped at hstepped ⊢
  obtain ⟨_ | _, s'⟩ := stepped
  · exact hstepped.feeds hs
  · refine hstepped.trans_feeds (feeds_answerEntries ?_ clock request)
    exact (hstepped.feeds hs).applied_le_committed

/-! ## Steps -/

theorem feeds_runRole (hs : s.volatile.applied ≤ s.volatile.committed) (clock : Clock)
    (branch : Branch) : Feeds s (s.runRole clock branch).2 := by
  unfold Server.runRole
  split
  · exact (Quiet.refl s).feeds hs
  · exact (quiet_candidateTurn clock _ s).feeds hs
  · exact feeds_runLeader hs clock branch _

/-- Whatever happens to a server, its indices do not go back, and the machine is given exactly the
    entries between the old and the new applied index. -/
theorem feeds_step (hs : s.volatile.applied ≤ s.volatile.committed) (clock : Clock)
    (event : Event) : Feeds s (s.step clock event).server := by
  cases event with
  | requestVote request => exact (quiet_requestVote clock request s).feeds hs
  | appendEntries request => exact feeds_appendEntries hs clock request
  | submit command => exact (quiet_submit command s).feeds hs
  | voteResult term result => exact (quiet_countVote term result s).feeds hs
  | appendResult term report =>
    show Feeds s (s.handOutcome clock term report).2
    unfold Server.handOutcome
    split
    · exact feeds_runRole hs clock _
    · split
      · exact feeds_runRetired hs clock _ _
      · exact (Quiet.refl s).feeds hs
  | timerFires => exact Quiet.feeds ⟨rfl, rfl, rfl⟩ hs
  | takeTimeout => exact (quiet_takeTimeout s).feeds hs
  | turn branch => exact feeds_runRole hs clock branch
  | retiredTurn place branch => exact feeds_runRetired hs clock branch place
  | shutDown => exact (quiet_shutDown s).feeds hs

/-! ## Runs -/

omit [Storage σ] in
theorem Feeds.calls_eq {s s' : Server σ (Recorder μ)} (h : Feeds s s') :
    s'.machine.calls = s.machine.calls ++
      ((s'.log.entries.take s'.volatile.applied).drop s.volatile.applied).map Entry.asCall := by
  rw [h.machine, calls_feed]

/-- What is applied is committed, and the calls of the machine carry the indices from 1 to the
    applied one, each once. -/
structure InStep (s : Server σ (Recorder μ)) : Prop where
  applied_le : s.volatile.applied ≤ s.volatile.committed
  indices : s.machine.calls.map Prod.fst = List.range' 1 s.volatile.applied

omit [Storage σ] in
theorem InStep.feeds {s s' : Server σ (Recorder μ)} (h : s.InStep) (hfeeds : Feeds s s') :
    s'.InStep := by
  refine ⟨hfeeds.applied_le_committed, ?_⟩
  have hle := hfeeds.applied_le
  have havailable := hfeeds.available
  have hcount : min s'.volatile.applied s'.log.length - s.volatile.applied =
      s'.volatile.applied - s.volatile.applied := by
    omega
  rw [hfeeds.calls_eq, List.map_append, h.indices, Log.map_asCall, hcount, Nat.add_comm,
    List.range'_append_1, Nat.add_sub_of_le hle]

theorem InStep.after {s : Server σ (Recorder μ)} (h : s.InStep) (events : List (Clock × Event)) :
    (s.after events).InStep := by
  induction events generalizing s with
  | nil => exact h
  | cons first events ih =>
    obtain ⟨clock, event⟩ := first
    exact ih (h.feeds (feeds_step h.applied_le clock event))

/-- Term and indices are not smaller than they were, and no call was taken back. -/
structure NotBefore (s s' : Server σ (Recorder μ)) : Prop where
  term_le : s.term ≤ s'.term
  committed_le : s.volatile.committed ≤ s'.volatile.committed
  applied_le : s.volatile.applied ≤ s'.volatile.applied
  calls_prefix : s.machine.calls <+: s'.machine.calls

theorem InStep.notBefore_after {s : Server σ (Recorder μ)} (h : s.InStep)
    (events : List (Clock × Event)) : s.NotBefore (s.after events) := by
  induction events generalizing s with
  | nil => exact ⟨Nat.le_refl _, Nat.le_refl _, Nat.le_refl _, List.prefix_rfl⟩
  | cons first events ih =>
    obtain ⟨clock, event⟩ := first
    have hfeeds := feeds_step h.applied_le clock event
    have hlater := ih (h.feeds hfeeds)
    refine ⟨Nat.le_trans (evolves_step clock event s).term_le hlater.term_le,
      Nat.le_trans hfeeds.committed_le hlater.committed_le,
      Nat.le_trans hfeeds.applied_le hlater.applied_le, List.IsPrefix.trans ?_ hlater.calls_prefix⟩
    rw [hfeeds.calls_eq]
    exact List.prefix_append ..

end Server

/-- What applying comes to, from whatever log: it fails if there is something to apply that the log
    lacks, and everything that the log has was applied by then. When it is applied again, maybe from
    another log and up to a later index, only what is still missing is. -/
structure CatchesUp [StateMachine μ] (log : Log) (v : VolatileState) (recorder : Recorder μ) :
    Prop where
  fails_iff : (∃ e, (applyCommitted log v recorder).result = .error e) ↔
    v.applied < v.committed ∧ log.length < v.committed
  applied : (applyCommitted log v recorder).state.1 =
    { v with applied := max v.applied (min v.committed log.length) }
  calls : (applyCommitted log v recorder).state.2.calls =
    recorder.calls ++ ((log.entries.take v.committed).drop v.applied).map Entry.asCall
  later : ∀ (log' : Log) (committed : Nat), v.committed ≤ committed →
    let reached := max v.applied (min v.committed log.length)
    let again := applyCommitted log' { v with committed, applied := reached }
      (applyCommitted log v recorder).state.2
    again.state.2.calls = (applyCommitted log v recorder).state.2.calls ++
        ((log'.entries.take committed).drop reached).map Entry.asCall ∧
      (committed ≤ log'.length → again.result = .ok (committed - reached))

theorem catchesUp [StateMachine μ] (log : Log) {v : VolatileState}
    (h : v.applied ≤ v.committed) (recorder : Recorder μ) : CatchesUp log v recorder := by
  have heq := applyCommitted_eq log v recorder h
  refine ⟨?_, by rw [heq], by rw [heq, calls_feed], fun log' committed hle => ?_⟩
  · rw [heq]
    constructor
    · rintro ⟨e, he⟩
      simp only at he
      split at he
      · cases he
      · omega
    · intro hlt
      exact ⟨_, if_neg (by omega)⟩
  · have hreached : max v.applied (min v.committed log.length) ≤ committed := by omega
    have hagain := applyCommitted_eq log'
      { v with committed, applied := max v.applied (min v.committed log.length) }
      (applyCommitted log v recorder).state.2 hreached
    refine ⟨by rw [hagain, calls_feed], fun hlog => ?_⟩
    rw [hagain]
    exact if_pos (Nat.le_trans hlog (Nat.le_max_right ..))

namespace Server

variable [StateMachine μ] [Storage σ]

/-- From the start of a server on, whatever happens to it and whatever its disk does, its term and
    its indices do not go back, and the machine is given entries 1, 2, 3, … up to the applied index,
    each once and as it stands in the log at that moment. Where the log ends too early, all that it
    has is applied, and later only what is still missing. -/
theorem applies_each_once {clock : Clock} {config : Configuration} {channels : List ServerId}
    {disk : σ} {machine : μ} {started : Server σ (Recorder μ)}
    (hstart : Server.start clock config channels disk ⟨machine, []⟩ = .ok started)
    (events : List (Clock × Event)) :
    let s := started.after events
    s.InStep ∧ (∀ later, s.NotBefore (s.after later)) ∧
      (∀ clock event,
        let s' := (s.step clock event).server
        (s.volatile.applied < s'.volatile.applied → s'.volatile.applied ≤ s'.log.length) ∧
          s'.machine.calls = s.machine.calls ++
            ((s'.log.entries.take s'.volatile.applied).drop s.volatile.applied).map
              Entry.asCall) ∧
      ∀ (log : Log) (index : Nat), s.volatile.committed ≤ index →
        CatchesUp log { s.volatile with committed := index } s.machine := by
  intro s
  have hinitial : started.InStep := by
    obtain ⟨-, peers, durable, -, -, rfl⟩ := start_eq hstart
    exact ⟨Nat.le_refl 0, rfl⟩
  have hs : s.InStep := hinitial.after events
  refine ⟨hs, hs.notBefore_after, fun clock event => ?_, fun log index hle => ?_⟩
  · have hfeeds := feeds_step hs.applied_le clock event
    exact ⟨hfeeds.available, hfeeds.calls_eq⟩
  · exact catchesUp (v := { s.volatile with committed := index }) log
      (Nat.le_trans hs.applied_le hle) s.machine

/-- Two entries are applied, then they are cut off again, and three others come in their place. -/
def replacement : List (Clock × Event) :=
  [(⟨1, 1⟩, .appendEntries ⟨1, ⟨2⟩, .origin, [⟨1, 1, [1]⟩, ⟨1, 2, [2]⟩], 2⟩),
    (⟨2, 1⟩, .appendEntries ⟨2, ⟨3⟩, .origin, [⟨2, 1, [3]⟩], 5⟩),
    (⟨3, 1⟩, .appendEntries ⟨2, ⟨3⟩, ⟨2, 1⟩, [⟨2, 2, [4]⟩, ⟨2, 3, [5]⟩], 3⟩)]

/-- Server 1 of three on an empty disk, with a machine whose calls are recorded. -/
def recorded : Server (Fated Contents) (Recorder KeyValue.Store) :=
  { newcomer [] with machine := ⟨.empty, []⟩ }

/-- Of the entries that came later only the third is applied. -/
theorem applies_each_once_replacement :
    (recorded.after replacement).log.entries = [⟨2, 1, [3]⟩, ⟨2, 2, [4]⟩, ⟨2, 3, [5]⟩] ∧
      (recorded.after replacement).machine.calls = [(1, [1]), (2, [2]), (3, [5])] ∧
      (recorded.after replacement).InStep ∧
      ∀ log, CatchesUp log { (recorded.after replacement).volatile with committed := 7 }
        (recorded.after replacement).machine := by
  have hstart : Server.start ⟨0, 1⟩ recorded.config [⟨2⟩, ⟨3⟩] ⟨.blank, []⟩ recorded.machine =
      .ok recorded := rfl
  obtain ⟨hs, -, -, hcatches⟩ := applies_each_once hstart replacement
  exact ⟨by decide, by decide, hs, fun log => hcatches log 7 (by decide)⟩

end Server

end Quorum
