import Mathlib.Order.Bounds.Basic
import Quorum.KeyValue.Store
import Quorum.Proofs.Configuration
import Quorum.Proofs.Server.Commits
import Quorum.Proofs.Server.Turns

set_option autoImplicit false

/-! # The rule for committing

A leader looks at one index only, the middle one of all that the members reach, and commits it if
its entry is of the leader's own term. That is enough: an index is reached by more than half of the
members exactly if it is not past the middle one, and as terms do not go down along the log, no
entry before the middle one is of the leader's term if that one is not.

Candidates count votes by a formula of their own. Still, whoever wins an election has the vote of a
member that holds what was committed. -/

namespace Quorum

namespace Server

variable {σ μ : Type} [StateMachine μ] {s : Server σ μ}

/-! ## One commit -/

/-- What a leader commits, it applies; or it changes nothing. -/
theorem commitMajority_eq (happlied : s.volatile.applied ≤ s.volatile.committed) (term : Nat)
    (known : List (ServerId × Progress)) :
    let index := majorityIndex (s.log.last.index :: known.map (·.2.matched))
    s.commitMajority term known =
      .ok ()
        (if s.volatile.committed < index ∧ s.log.termAt index = some term then
          { s with
            volatile := { s.volatile with committed := index, applied := index }
            machine := feed s.machine ((s.log.entries.take index).drop s.volatile.applied) }
        else s) := by
  intro index
  unfold Server.commitMajority
  simp only
  rw [show majorityIndex (s.log.last.index :: known.map (·.2.matched)) = index from rfl]
  split
  · next hold => rw [if_neg fun h => Nat.not_lt.2 hold h.1]
  · next hnew =>
    split
    · next hterm => rw [if_neg fun h => hterm h.2]
    · next hterm =>
      have hterm : s.log.termAt index = some term := by simpa using hterm
      have hle : index ≤ s.log.length := ((s.log.termAt_eq_some_iff index term).1 hterm).1
      have hraised : s.volatile.raiseCommitted index =
          .ok () { s.volatile with committed := index } := by
        unfold VolatileState.raiseCommitted
        rw [if_neg (by omega), if_neg (by omega)]
      have happly := applyEntries_eq
        ({ s with volatile := { s.volatile with committed := index } } : Server σ μ)
        (show s.volatile.applied ≤ index by omega) hle
      simp only at happly
      rw [if_pos ⟨Nat.lt_of_not_le hnew, hterm⟩]
      simp only [hraised, Attempt.ok]
      rw [happly]
      rfl

/-- A leader that counts copies does not fail, and nothing is applied that is not committed. -/
theorem commitMajority_advances (happlied : s.volatile.applied ≤ s.volatile.committed) (term : Nat)
    (known : List (ServerId × Progress)) :
    ∃ s', s.commitMajority term known = .ok () s' ∧ s.Advances s' ∧
      s'.volatile.applied ≤ s'.volatile.committed := by
  refine ⟨_, s.commitMajority_eq happlied term known, ?_⟩
  split
  · exact ⟨⟨_, _, _, rfl⟩, Nat.le_refl _⟩
  · exact ⟨Advances.refl s, happlied⟩

/-! ## The rule -/

/-- The members that hold the entry at an index, as far as the leader knows: itself, and the peers
    whose logs agree up to there. -/
def holders (s : Server σ μ) (known : List (ServerId × Progress)) (index : Nat) : List ServerId :=
  s.id :: (known.filter (index ≤ ·.2.matched)).map Prod.fst

/-- An index that the leader of a term may commit. -/
structure Committable (s : Server σ μ) (term : Nat) (known : List (ServerId × Progress))
    (index : Nat) : Prop where
  new : s.volatile.committed < index
  term : s.log.termAt index = some term
  held : Majority s.config.memberIds (s.holders known index)

/-- The leader of a term who counts copies. It has a valid configuration and is connected to all
    other members, it knows none of them to hold more than itself, and its terms lead up to its own.
    Nothing is supposed of the committed index. -/
structure Counting (s : Server σ μ) (term : Nat) (known : List (ServerId × Progress)) : Prop where
  valid : s.config.validate = .ok ()
  connected : ∃ channels, s.config.connect channels = .ok s.peers
  peers : known.map Prod.fst = s.peers
  matched : ∀ peer ∈ known, peer.2.matched ≤ s.log.length
  sorted : s.log.entries.Pairwise fun entry next => entry.term ≤ next.term
  terms : ∀ entry ∈ s.log.entries, entry.term ≤ term
  applied : s.volatile.applied ≤ s.volatile.committed

namespace Counting

variable {term : Nat} {known : List (ServerId × Progress)} {index : Nat}

omit [StateMachine μ] in
/-- More than half of the members hold exactly the entries up to the middle index. -/
theorem majority_holders_iff (h : s.Counting term known) (hindex : index ≤ s.log.length) :
    Majority s.config.memberIds (s.holders known index) ↔
      index ≤ majorityIndex (s.log.last.index :: known.map (·.2.matched)) := by
  obtain ⟨channels, hconnect⟩ := h.connected
  obtain ⟨hpeers, hmem⟩ := Configuration.connect_eq hconnect
  obtain ⟨hids, hself⟩ := Configuration.nodup_of_validate h.valid
  have hsize : s.config.memberIds.length = known.length + 1 := by
    rw [← (perm_of_mem_peers hids hself hpeers hmem).length_eq, List.length_cons, ← h.peers,
      List.length_map]
  have hlast : s.log.last.index = s.log.length := s.log.contiguous.index_endOf
  have hown : decide (index ≤ s.log.last.index) = true := decide_eq_true (hlast ▸ hindex)
  rw [le_majorityIndex_iff (List.cons_ne_nil s.log.last.index (known.map (·.2.matched))),
    List.filter_cons, if_pos hown, List.filter_map,
    List.length_cons, List.length_cons, List.length_map, List.length_map, ← hsize]
  constructor
  · intro hmajority
    have hmore := hmajority.moreThanHalf
    rwa [holders, List.length_cons, List.length_map] at hmore
  · intro hmore
    refine Majority.of_sublist hself hpeers hmem (h.peers ▸ (List.filter_sublist ..).map _) ?_
    rwa [List.length_map]

omit [StateMachine μ] in
/-- The middle index is not past the end of the log. -/
theorem majorityIndex_le (h : s.Counting term known) :
    majorityIndex (s.log.last.index :: known.map (·.2.matched)) ≤ s.log.length := by
  have hlast : s.log.last.index = s.log.length := s.log.contiguous.index_endOf
  have hall : ∀ other ∈ s.log.last.index :: known.map (·.2.matched), other ≤ s.log.length := by
    refine List.forall_mem_cons.2 ⟨Nat.le_of_eq hlast, fun other hother => ?_⟩
    obtain ⟨peer, hpeer, rfl⟩ := List.mem_map.1 hother
    exact h.matched peer hpeer
  have hmore := length_lt_of_majorityIndex
    (List.cons_ne_nil s.log.last.index (known.map (·.2.matched)))
  obtain ⟨other, hother⟩ := List.exists_mem_of_length_pos (l :=
    (s.log.last.index :: known.map (·.2.matched)).filter
      (majorityIndex (s.log.last.index :: known.map (·.2.matched)) ≤ ·)) (by omega)
  obtain ⟨hmem, hreach⟩ := List.mem_filter.1 hother
  exact Nat.le_trans (of_decide_eq_true hreach) (hall other hmem)

omit [StateMachine μ] in
/-- Behind an entry of the leader's term there are only such entries. -/
theorem termAt_eq (h : s.Counting term known) (hterm : s.log.termAt index = some term)
    (hpos : 0 < index) {later : Nat} (hle : index ≤ later) (hlater : later ≤ s.log.length) :
    s.log.termAt later = some term := by
  obtain ⟨index, rfl⟩ := Nat.exists_eq_add_one.2 hpos
  obtain ⟨later, rfl⟩ := Nat.exists_eq_add_one.2 (Nat.lt_of_lt_of_le hpos hle)
  have hlt : later < s.log.entries.length := hlater
  have hindex : index < s.log.entries.length := by omega
  rw [Log.termAt_succ, List.getElem?_eq_getElem hindex, Option.map_some, Option.some.injEq] at hterm
  rw [Log.termAt_succ, List.getElem?_eq_getElem hlt, Option.map_some, Option.some.injEq]
  refine Nat.le_antisymm (h.terms _ (List.getElem_mem hlt)) ?_
  rcases Nat.eq_or_lt_of_le (Nat.le_of_succ_le_succ hle) with rfl | hbefore
  · exact Nat.le_of_eq hterm.symm
  · exact hterm ▸ List.pairwise_iff_getElem.1 h.sorted _ _ hindex hlt hbefore

omit [StateMachine μ] in
/-- An index that may be committed is not past the middle one. -/
theorem le_majorityIndex (h : s.Counting term known) (hindex : s.Committable term known index) :
    index ≤ majorityIndex (s.log.last.index :: known.map (·.2.matched)) :=
  (h.majority_holders_iff ((s.log.termAt_eq_some_iff ..).1 hindex.term).1).1 hindex.held

end Counting

/-- A leader that counts copies commits the greatest index that it may commit; if there is none, the
    committed index stays. Whoever wins an election has the vote of one who holds what may be
    committed. -/
theorem commitMajority_isGreatest {term : Nat} {known : List (ServerId × Progress)}
    (h : s.Counting term known) :
    (s.commitMajority term known).result = .ok () ∧
      (IsGreatest {index | s.Committable term known index}
          (s.commitMajority term known).state.volatile.committed ∨
        (∀ index, ¬ s.Committable term known index) ∧
          (s.commitMajority term known).state.volatile.committed = s.volatile.committed) ∧
      ∀ index, s.Committable term known index →
        ∀ (tally : Tally) (voters : List ServerId), voters.Nodup → voters ⊆ s.config.memberIds →
          voters.length = tally.votes + 1 → tally.isWon s.config.clusterSize →
          ∃ id, id ∈ s.holders known index ∧ id ∈ voters := by
  rw [s.commitMajority_eq h.applied]
  refine ⟨rfl, ?_, fun index hindex tally voters hnodup hsubset hvotes hwon => ?_⟩
  · simp only [Attempt.ok]
    split
    · next hcommits =>
      obtain ⟨hnew, hterm⟩ := hcommits
      have hheld := (h.majority_holders_iff h.majorityIndex_le).2 (Nat.le_refl _)
      exact Or.inl ⟨⟨hnew, hterm, hheld⟩, fun index hindex => h.le_majorityIndex hindex⟩
    · next hstays =>
      refine Or.inr ⟨fun index hindex => hstays ?_, rfl⟩
      have hle := h.le_majorityIndex hindex
      exact ⟨Nat.lt_of_lt_of_le hindex.new hle,
        h.termAt_eq hindex.term (Nat.zero_lt_of_lt hindex.new) hle h.majorityIndex_le⟩
  · have hsize : s.config.memberIds.length = s.config.clusterSize := List.length_map _
    have hmore : s.config.clusterSize < (tally.votes + 1) * 2 := of_decide_eq_true hwon
    exact hindex.held.exists_mem_both ⟨hnodup, hsubset, by omega⟩

/-- A member of four in term 2, which has voted for the first of them. Nothing is committed yet. -/
def seated (n : Nat) (log : Log) (role : Role) : Server Contents KeyValue.Store where
  config := .standard ⟨n⟩ ([1, 2, 3, 4].map fun n => ⟨⟨n⟩, .v4 ⟨127, 0, 0, 1⟩ 0⟩)
  peers := ([1, 2, 3, 4].filter (· ≠ n)).map ServerId.mk
  durable :=
    { id := ⟨n⟩, ballot := ⟨2, some ⟨1⟩⟩, votedTerm := 2, log,
      disk := ⟨⟨2, some ⟨1⟩⟩, log.entries⟩, unsyncedFrom := none }
  volatile := .initial
  machine := .empty
  timer := .idle
  timeouts := []
  role
  retired := []
  isShutDown := false

/-- The leader has taken over one entry, and put two of its own behind it. -/
def counting : Server Contents KeyValue.Store :=
  seated 1 ⟨[⟨1, 1, [1]⟩, ⟨2, 2, [2]⟩, ⟨2, 3, [3]⟩], by decide⟩ (.leader (.fresh 2 false))

/-- Two of its peers hold the first of its own entries, and one has nothing yet. -/
def counted : List (ServerId × Progress) :=
  [(⟨2⟩, ⟨3, 2, false⟩), (⟨3⟩, ⟨3, 2, false⟩), (⟨4⟩, ⟨1, 0, true⟩)]

/-- Three of four are enough for the second index, and the leader alone is not for the third. Who
    has the votes of three has that of a member that holds the second entry. -/
theorem commitMajority_isGreatest_counting :
    counting.Counting 2 counted ∧
      IsGreatest {index | counting.Committable 2 counted index} 2 ∧
      (counting.commitMajority 2 counted).state.volatile.committed = 2 ∧
      ∃ id, id ∈ counting.holders counted 2 ∧ id ∈ [(⟨4⟩ : ServerId), ⟨3⟩, ⟨2⟩] := by
  have hcounting : counting.Counting 2 counted :=
    ⟨by decide, ⟨[⟨2⟩, ⟨3⟩, ⟨4⟩], by decide⟩, rfl, by decide, by decide, by decide, by decide⟩
  obtain ⟨-, hcommitted, hvoters⟩ := commitMajority_isGreatest hcounting
  have htwo : (counting.commitMajority 2 counted).state.volatile.committed = 2 := by decide
  rw [htwo] at hcommitted
  have hgreatest := hcommitted.resolve_right fun h => absurd h.2 (by decide)
  exact ⟨hcounting, hgreatest, htwo,
    hvoters 2 hgreatest.1 ⟨3, 2, 2, 3⟩ _ (by decide) (by decide) rfl (by decide)⟩

end Server

end Quorum
