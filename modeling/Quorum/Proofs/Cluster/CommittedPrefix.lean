import Quorum.Proofs.Cluster.Tracks

set_option autoImplicit false

/-! # Members agree on what is committed

What a member knows to be committed is part of a chosen log, and of any two chosen logs one goes on
where the other ends. So all members agree on what is committed, and none of them ever loses it.

This needs a condition that none of the other properties of a run needs. A loop whose role was given
up learns of it only at its next turn, and before that it may send once more, in the term that it
led, out of the log that its server has by now and with the index that its server has committed by
now. What it says is committed may belong to a later term than the one in which it says so, and then
a request of its own term that comes late overwrites it. The condition is that no loop sends anything
after its role was given up. Without it, the agreement fails. -/

namespace Quorum

open Chronicle

/-- The entries that were handed to the machine of a member since it was started. -/
def Cluster.handed {σ μ : Type} (c : Cluster σ μ) (id : ServerId) : List Entry :=
  (c.memory id).take (c.applied id)

namespace Setup

variable {σ μ : Type} [LawfulStorage σ] {setup : Setup σ μ} {prompt : Prop} {facts : List Fact}
  {c : Cluster σ μ}

/-! ## What a member has committed -/

/-- All that is committed is applied, is in the log and is known to the chronicle. -/
theorem Tracks.committed (h : setup.Tracks True facts c) (id : ServerId) :
    c.applied id = c.committed id ∧ c.committed id ≤ (c.memory id).length ∧
      (c.committed id ≠ 0 → Fact.hold id ((c.memory id).take (c.committed id)) ∈ facts) := by
  unfold Cluster.applied Cluster.committed Cluster.memory
  cases hserver : c.server? id with
  | none => exact ⟨rfl, Nat.le_refl _, fun hne => absurd rfl hne⟩
  | some server =>
    obtain ⟨happlied, hle, hhold⟩ := (h.up id server (Cluster.hosts_of_server? hserver)).volatile trivial
    exact ⟨happlied, hle, hhold⟩

/-- What a member has once committed is on its disk, and in memory whenever it runs. -/
theorem Tracks.keeps (h : setup.Tracks prompt facts c) {id : ServerId} {part : List Entry}
    (hhold : Fact.hold id part ∈ facts) :
    part <+: c.stored id ∧ ((c.server? id).isSome → part <+: c.memory id) := by
  have hheld := (h.possible.held hhold).1
  have hstored := h.memory_prefix_stored id
  unfold Cluster.view at hheld
  unfold Cluster.memory Cluster.server? Cluster.stored at *
  cases hhost : c.hosts id with
  | up server =>
    rw [hhost] at hheld hstored
    exact ⟨hheld.trans hstored, fun _ => hheld⟩
  | down disk =>
    rw [hhost] at hheld
    exact ⟨hheld, nofun⟩

/-- A log that begins with a part of another one has all parts of that part. -/
theorem take_eq_of_begins {log own : List Entry} {count index : Nat} (h : log.take count <+: own)
    (hcount : count ≤ log.length) (hindex : index ≤ count) : own.take index = log.take index := by
  obtain ⟨rest, rfl⟩ := h
  rw [List.take_append_of_le_length, List.take_take, Nat.min_eq_left hindex]
  rwa [List.length_take_of_le hcount]

/-- Two members agree on what both of them have committed, at moments of which the chronicle knows
    both. -/
theorem Tracks.agree {later facts' : List Fact} {view : View} {c' : Cluster σ μ}
    (hlater : Possible setup.ids later view) (h : setup.Tracks True facts c) (hsub : facts ⊆ later)
    (h' : setup.Tracks True facts' c') (hsub' : facts' ⊆ later) {a b : ServerId} {index : Nat}
    (ha : index ≤ c.committed a) (hb : index ≤ c'.committed b) :
    (c.memory a).take index = (c'.memory b).take index := by
  rcases Nat.eq_zero_or_pos index with rfl | hpos
  · rfl
  · obtain ⟨-, hle, hhold⟩ := h.committed a
    obtain ⟨-, hle', hhold'⟩ := h'.committed b
    have hcomparable := hlater.holds_comparable (hsub (hhold (by omega))) (hsub' (hhold' (by omega)))
    rcases hcomparable with hbegins | hbegins
    · exact (take_eq_of_begins (hbegins.trans (List.take_prefix ..)) hle ha).symm
    · exact take_eq_of_begins (hbegins.trans (List.take_prefix ..)) hle' hb

/-- What a member has committed it still has later on. -/
theorem Tracks.stays {facts' : List Fact} {c' : Cluster σ μ} (h : setup.Tracks True facts c)
    (h' : setup.Tracks prompt facts' c') (hsub : facts ⊆ facts') {id : ServerId} {index : Nat}
    (hindex : index ≤ c.committed id) :
    (c'.stored id).take index = (c.memory id).take index ∧
      ((c'.server? id).isSome → (c'.memory id).take index = (c.memory id).take index) := by
  rcases Nat.eq_zero_or_pos index with rfl | hpos
  · exact ⟨rfl, fun _ => rfl⟩
  · obtain ⟨-, hle, hhold⟩ := h.committed id
    obtain ⟨hstored, hmemory⟩ := h'.keeps (hsub (hhold (by omega)))
    exact ⟨take_eq_of_begins hstored hle hindex, fun hup =>
      take_eq_of_begins (hmemory hup) hle hindex⟩

/-! ## What the machines were handed -/

variable [StateMachine μ]

/-- Every machine was handed the entries up to the applied index of its server, in their order. -/
def Fed (setup : Setup σ μ) (c : Cluster σ μ) : Prop :=
  ∀ id server, c.server? id = some server →
    server.machine = feed (setup.machine id) (c.handed id)

/-- A member that is down has no part in what happens to others. -/
theorem perform_hosts_of_down (action : Action) {id : ServerId} {disk : σ}
    (hdown : c.hosts id = .down disk) : (c.perform action).hosts id = .down disk := by
  unfold Cluster.perform
  split
  · exact hdown
  · next other clock event _ =>
    cases hserver : c.server? other with
    | none => exact hdown
    | some s =>
      have hne : id ≠ other := by
        rintro rfl
        cases hdown.symm.trans (Cluster.hosts_of_server? hserver)
      rw [Cluster.hosts_step, if_neg hne]
      exact hdown

omit [StateMachine μ] in
/-- Only the member that is started is up then, with a new machine and nothing committed. -/
theorem fresh_of_boot {id other : ServerId} {clock : Clock} {channels : List ServerId} {disk : σ}
    {server : Server σ μ} (hdown : c.hosts id = .down disk)
    (hup : (setup.boot c other clock channels).hosts id = .up server) :
    server.machine = setup.machine id ∧ server.volatile = .initial := by
  unfold Setup.boot at hup
  split at hup
  · cases hdown.symm.trans hup
  · split at hup
    · split at hup
      · next s hstart =>
        by_cases hid : id = other
        · subst hid
          rw [Cluster.hosts_setHost] at hup
          cases hup
          obtain ⟨-, peers, durable, -, -, rfl⟩ := Server.start_eq hstart
          exact ⟨rfl, rfl⟩
        · rw [Cluster.hosts_setHost_of_ne _ _ hid] at hup
          cases hdown.symm.trans hup
      · cases hdown.symm.trans hup
    · cases hdown.symm.trans hup

/-- A server that is up after it was down was just started. -/
theorem fresh_of_down {action : Action} {id : ServerId} {disk : σ} {server : Server σ μ}
    (hdown : c.hosts id = .down disk) (hup : (setup.act c action).hosts id = .up server) :
    server.machine = setup.machine id ∧ server.volatile = .initial := by
  cases action with
  | boot other clock channels => exact fresh_of_boot hdown hup
  | crash other =>
    have hcrashed : ∃ disk, (c.crash other).hosts id = .down disk := by
      by_cases hid : id = other
      · subst hid
        exact ⟨_, c.hosts_setHost id _⟩
      · exact ⟨disk, (c.hosts_setHost_of_ne _ hid).trans hdown⟩
    obtain ⟨disk', hdown'⟩ := hcrashed
    cases hdown'.symm.trans hup
  | occur other clock event => cases (perform_hosts_of_down _ hdown).symm.trans hup
  | deliver place clock => cases (perform_hosts_of_down _ hdown).symm.trans hup
  | conclude place clock ending => cases (perform_hosts_of_down _ hdown).symm.trans hup

/-- Between two moments the machine of a server that goes on running is handed what was applied. -/
theorem Tracks.feed_hands {facts' : List Fact} {c' : Cluster σ μ} (h : setup.Tracks True facts c)
    (hacts : setup.Acts True facts' c c') (hsub : facts ⊆ facts') {id : ServerId}
    {s s' : Server σ μ} (hs : c.hosts id = .up s) (hs' : c'.hosts id = .up s')
    (hfed : s.machine = feed (setup.machine id) (s.log.entries.take s.volatile.applied)) :
    s'.machine = feed (setup.machine id) (s'.log.entries.take s'.volatile.applied) := by
  obtain ⟨hle, hmachine⟩ := hacts.hands id s s' hs hs' trivial
  obtain ⟨happlied, hcommitted, -⟩ := (h.up id s hs).volatile trivial
  -- the log still begins with what was handed over before
  have hstays : s'.log.entries.take s.volatile.applied =
      s.log.entries.take s.volatile.applied := by
    have hindex : s.volatile.applied ≤ c.committed id := by
      unfold Cluster.committed Cluster.server?
      rw [hs]
      exact Nat.le_of_eq happlied
    have hboth := (h.stays hacts.tracks hsub hindex).2
    unfold Cluster.memory Cluster.server? at hboth
    rw [hs, hs'] at hboth
    exact hboth rfl
  have hsplit : (s'.log.entries.take s'.volatile.applied).take s.volatile.applied =
      s.log.entries.take s.volatile.applied := by
    rw [List.take_take, Nat.min_eq_left hle, hstays]
  rw [hmachine, hfed, ← feed_append, ← hsplit, List.take_append_drop]

theorem fed_moment (setup : Setup σ μ) (actions : List Action)
    (hsilent : setup.RetiredAreSilent actions) (time : Nat) :
    setup.Fed (setup.moment actions time) := by
  obtain ⟨facts, hgrows, htracks, hacts⟩ := setup.exists_chronicle True actions fun _ => hsilent
  -- by induction on the time that has passed, for all members at once
  induction time with
  | zero =>
    -- nobody runs yet
    intro id server hserver
    cases hserver
  | succ time ih =>
    intro id s' hs'
    have hup' := Cluster.hosts_of_server? hs'
    unfold Cluster.handed Cluster.memory Cluster.applied
    rw [hs']
    show s'.machine = feed (setup.machine id) (s'.log.entries.take s'.volatile.applied)
    cases hhost : (setup.moment actions time).hosts id with
    | down disk =>
      -- it was started just now
      have hfresh : s'.machine = setup.machine id ∧ s'.volatile = .initial := by
        rw [moment_succ] at hup'
        cases haction : actions[time]? with
        | none =>
          rw [haction] at hup'
          cases hhost.symm.trans hup'
        | some action =>
          rw [haction] at hup'
          exact fresh_of_down hhost hup'
      rw [hfresh.1, hfresh.2]
      rfl
    | up s =>
      have hserver : (setup.moment actions time).server? id = some s := by
        unfold Cluster.server?
        rw [hhost]
      have hfed := ih id s hserver
      unfold Cluster.handed Cluster.memory Cluster.applied at hfed
      rw [hserver] at hfed
      exact (htracks time).feed_hands (hacts time) (hgrows _ _ (Nat.le_succ time)) hhost hup' hfed

/-! ## All members at all moments -/

/-- The members agree on what is committed in the course of a run. -/
structure CommittedAgree (setup : Setup σ μ) (actions : List Action) : Prop where
  applied_eq : ∀ time id,
    (setup.moment actions time).applied id = (setup.moment actions time).committed id
  committed_le : ∀ time id,
    (setup.moment actions time).committed id ≤ ((setup.moment actions time).memory id).length
  /-- Whatever part of the committed entries is still to be applied, none of them is missing. -/
  applies : ∀ time id server, (setup.moment actions time).server? id = some server →
    ∀ v machine, v.applied ≤ v.committed → v.committed ≤ server.volatile.committed →
      (applyCommitted server.log v (machine : μ)).result = .ok (v.committed - v.applied)
  /-- What two members have committed, or one member before and after a restart, is the same. -/
  agree : ∀ i j a b index, index ≤ (setup.moment actions i).committed a →
    index ≤ (setup.moment actions j).committed b →
    ((setup.moment actions i).memory a).take index = ((setup.moment actions j).memory b).take index
  /-- What is committed is on the disk from then on. -/
  stays_stored : ∀ i j, i ≤ j → ∀ id index, index ≤ (setup.moment actions i).committed id →
    ((setup.moment actions j).stored id).take index =
      ((setup.moment actions i).memory id).take index
  /-- What is committed is in memory from then on, whenever the member runs. -/
  stays_in_memory : ∀ i j, i ≤ j → ∀ id index, index ≤ (setup.moment actions i).committed id →
    ((setup.moment actions j).server? id).isSome →
    ((setup.moment actions j).memory id).take index =
      ((setup.moment actions i).memory id).take index
  fed : ∀ time, setup.Fed (setup.moment actions time)
  /-- No two machines are ever handed different entries for one index. -/
  handed_eq : ∀ i j a b, ∀ entry ∈ (setup.moment actions i).handed a,
    ∀ entry' ∈ (setup.moment actions j).handed b, entry.index = entry'.index → entry = entry'

omit [StateMachine μ] in
/-- Of what is handed to the machine, each entry is the last one up to its own index. -/
theorem Tracks.handed_last (h : setup.Tracks True facts c) {id : ServerId} {entry : Entry}
    (hentry : entry ∈ c.handed id) :
    entry.index ≤ c.committed id ∧ ∃ before, (c.memory id).take entry.index = before ++ [entry] := by
  obtain ⟨happlied, hle, -⟩ := h.committed id
  have hcontiguous := (h.possible.contiguous (h.valid_memory id)).take (c.applied id)
  obtain ⟨hindex, before, hlast⟩ := hcontiguous.take_of_mem hentry
  rw [List.length_take_of_le (happlied ▸ hle)] at hindex
  rw [List.take_take, Nat.min_eq_left hindex] at hlast
  exact ⟨happlied ▸ hindex, before, hlast⟩

/-- Committed entries are the same for all members, and they stay. No index is committed that the
    log lacks, so the applied index never stays behind the committed one, as it would after a
    failure to apply (`applied_lt_of_error`). -/
theorem committed_agree (setup : Setup σ μ) (actions : List Action)
    (hsilent : setup.RetiredAreSilent actions) : setup.CommittedAgree actions := by
  obtain ⟨facts, hgrows, htracks, -⟩ := setup.exists_chronicle True actions fun _ => hsilent
  have hagree : ∀ i j a b index, index ≤ (setup.moment actions i).committed a →
      index ≤ (setup.moment actions j).committed b →
      ((setup.moment actions i).memory a).take index =
        ((setup.moment actions j).memory b).take index := by
    intro i j a b index ha hb
    -- the chronicle of the later moment knows of both
    exact (htracks i).agree (htracks (max i j)).possible (hgrows i _ (Nat.le_max_left i j))
      (htracks j) (hgrows j _ (Nat.le_max_right i j)) ha hb
  refine
    { applied_eq := fun time id => ((htracks time).committed id).1
      committed_le := fun time id => ((htracks time).committed id).2.1
      applies := ?_
      agree := hagree
      stays_stored := fun i j hle id index hindex =>
        ((htracks i).stays (htracks j) (hgrows i j hle) hindex).1
      stays_in_memory := fun i j hle id index hindex =>
        ((htracks i).stays (htracks j) (hgrows i j hle) hindex).2
      fed := setup.fed_moment actions hsilent
      handed_eq := ?_ }
  · intro time id server hserver v machine happlied hcommitted
    have hle := ((htracks time).committed id).2.1
    unfold Cluster.committed Cluster.memory at hle
    rw [hserver] at hle
    rw [applyCommitted_of_le_length server.log v machine happlied (Nat.le_trans hcommitted hle)]
    rfl
  · intro i j a b entry hentry entry' hentry' hindex
    obtain ⟨hle, before, hlast⟩ := (htracks i).handed_last hentry
    obtain ⟨hle', before', hlast'⟩ := (htracks j).handed_last hentry'
    rw [← hindex] at hle' hlast'
    have hsame := hlast.symm.trans ((hagree i j a b entry.index hle hle').trans hlast')
    exact List.singleton_injective (List.append_inj' hsame rfl).2

theorem committed_agree_firstCommand :
    (Setup.small 3 fun _ => []).RetiredAreSilent firstCommand ∧
      (Setup.small 3 fun _ => []).CommittedAgree firstCommand ∧
      ((Setup.small 3 fun _ => []).moment firstCommand 14).committed ⟨1⟩ = 1 := by
  have hsilent : (Setup.small 3 fun _ => []).RetiredAreSilent firstCommand := by decide
  exact ⟨hsilent, committed_agree _ _ hsilent, by decide⟩

/-- Member 1 leads term 1 and its command gets to nobody. Then member 5 leads term 2 and commits a
    command, of which member 1 hears as well. But the loop of member 1 sends what its server has by
    now once more, in term 1. Member 4 commits that, and then gets the first command of term 1. -/
def lateRun : List Action :=
  let clock : Clock := ⟨0, 1⟩
  let elect (id : ServerId) (call : Nat) : List Action :=
    [.occur id clock .timerFires, .occur id clock .takeTimeout, .occur id clock (.turn .stop),
      .deliver call clock, .conclude call clock (.reply 0),
      .deliver (call + 1) clock, .conclude (call + 1) clock (.reply 0)]
  [.boot ⟨1⟩ clock [⟨2⟩, ⟨3⟩, ⟨4⟩, ⟨5⟩], .boot ⟨2⟩ clock [⟨1⟩, ⟨3⟩, ⟨4⟩, ⟨5⟩],
      .boot ⟨3⟩ clock [⟨1⟩, ⟨2⟩, ⟨4⟩, ⟨5⟩], .boot ⟨4⟩ clock [⟨1⟩, ⟨2⟩, ⟨3⟩, ⟨5⟩],
      .boot ⟨5⟩ clock [⟨1⟩, ⟨2⟩, ⟨3⟩, ⟨4⟩]] ++
    elect ⟨1⟩ 0 ++
    [.deliver 3 clock, .occur ⟨1⟩ clock (.turn .stop), .occur ⟨1⟩ clock (.turn .stop),
      .occur ⟨1⟩ clock (.submit [7]), .occur ⟨1⟩ clock (.turn .wake),
      .conclude 6 clock (.failure (.timeout ⟨4⟩))] ++
    elect ⟨5⟩ 9 ++
    [.occur ⟨5⟩ clock (.turn .stop), .occur ⟨5⟩ clock (.turn .stop),
      .occur ⟨5⟩ clock (.submit [8]), .occur ⟨5⟩ clock (.turn .wake),
      .conclude 12 clock (.failure (.timeout ⟨1⟩)),
      .deliver 13 clock, .conclude 13 clock (.reply 0),
      .deliver 14 clock, .conclude 14 clock (.reply 0),
      .occur ⟨5⟩ clock (.turn .beat), .deliver 16 clock,
      .occur ⟨1⟩ clock (.retiredTurn 0 .beat), .deliver 19 clock, .deliver 6 clock]

/-- The agreement fails if a loop sends anything after its role was given up. -/
theorem not_committed_agree_lateRun :
    ¬ (Setup.small 5 fun _ => []).CommittedAgree lateRun := by
  intro h
  have hcommitted : 1 ≤ ((Setup.small 5 fun _ => []).moment lateRun 38).committed ⟨4⟩ := by
    decide +kernel
  have hup : (((Setup.small 5 fun _ => []).moment lateRun 39).server? ⟨4⟩).isSome := by
    decide +kernel
  have hbefore : (((Setup.small 5 fun _ => []).moment lateRun 38).memory ⟨4⟩).take 1 =
      [⟨2, 1, [8]⟩] := by decide +kernel
  have hafter : (((Setup.small 5 fun _ => []).moment lateRun 39).memory ⟨4⟩).take 1 =
      [⟨1, 1, [7]⟩] := by decide +kernel
  have hstays := h.stays_in_memory 38 39 (by decide) ⟨4⟩ 1 hcommitted hup
  rw [hbefore, hafter] at hstays
  cases hstays

end Setup

end Quorum
