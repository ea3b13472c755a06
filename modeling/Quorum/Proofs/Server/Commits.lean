import Quorum.Proofs.Server.Quiet

set_option autoImplicit false

/-! # Committing

The index that a leader commits is reached by more than half of the cluster: it is the middle one of
all indices in descending order. If its entry is of the leader's own term, all members that reach it
have acknowledged it in that term, and so it is chosen. -/

namespace Quorum

open Chronicle

/-! ## The middle index -/

theorem insertDescending_perm (index : Nat) (indices : List Nat) :
    (insertDescending index indices).Perm (index :: indices) := by
  induction indices with
  | nil => exact List.Perm.refl _
  | cons first rest ih =>
    rw [insertDescending]
    split
    · exact List.Perm.refl _
    · exact (ih.cons first).trans (List.Perm.swap ..)

theorem pairwise_insertDescending (index : Nat) {indices : List Nat}
    (h : indices.Pairwise (· ≥ ·)) : (insertDescending index indices).Pairwise (· ≥ ·) := by
  induction indices with
  | nil => exact List.pairwise_singleton ..
  | cons first rest ih =>
    obtain ⟨hfirst, hrest⟩ := List.pairwise_cons.1 h
    rw [insertDescending]
    split
    · next hle =>
      refine List.pairwise_cons.2 ⟨fun other hother => ?_, h⟩
      rcases List.mem_cons.1 hother with rfl | hother
      · exact hle
      · exact Nat.le_trans (hfirst other hother) hle
    · next hlt =>
      refine List.pairwise_cons.2 ⟨fun other hother => ?_, ih hrest⟩
      rcases List.mem_cons.1 ((insertDescending_perm index rest).subset hother) with rfl | hother
      · exact Nat.le_of_not_le hlt
      · exact hfirst other hother

theorem descending_perm (indices : List Nat) : (descending indices).Perm indices := by
  induction indices with
  | nil => exact List.Perm.refl _
  | cons index rest ih => exact (insertDescending_perm index _).trans (ih.cons index)

theorem pairwise_descending (indices : List Nat) : (descending indices).Pairwise (· ≥ ·) := by
  induction indices with
  | nil => exact List.Pairwise.nil
  | cons index rest ih => exact pairwise_insertDescending index ih

/-- In a descending list, an index is reached exactly at the places of those that reach it. -/
theorem le_getElem_iff {indices : List Nat} (h : indices.Pairwise (· ≥ ·)) (index : Nat)
    {place : Nat} (hplace : place < indices.length) :
    index ≤ indices[place] ↔ place < (indices.filter (index ≤ ·)).length := by
  induction indices generalizing place with
  | nil => cases hplace
  | cons first rest ih =>
    obtain ⟨hfirst, hrest⟩ := List.pairwise_cons.1 h
    rcases Nat.lt_or_ge first index with hlt | hle
    · -- if the first one does not reach it, none does
      have hnone : ∀ other ∈ first :: rest, ¬ index ≤ other :=
        List.forall_mem_cons.2 ⟨Nat.not_le.2 hlt, fun other hother =>
          Nat.not_le.2 (Nat.lt_of_le_of_lt (hfirst other hother) hlt)⟩
      have hfilter : (first :: rest).filter (index ≤ ·) = [] :=
        List.filter_eq_nil_iff.2 fun other hother => by simpa using hnone other hother
      rw [hfilter]
      exact iff_of_false (hnone _ (List.getElem_mem hplace)) (Nat.not_lt_zero _)
    · have hreach : decide (index ≤ first) = true := decide_eq_true hle
      rw [List.filter_cons, if_pos hreach, List.length_cons]
      cases place with
      | zero => exact iff_of_true hle (Nat.succ_pos _)
      | succ place =>
        rw [Nat.add_lt_add_iff_right]
        exact ih hrest (Nat.lt_of_succ_lt_succ hplace)

/-- Exactly the indices up to the middle one are reached by more than half. -/
theorem le_majorityIndex_iff {indices : List Nat} (hne : indices ≠ []) (index : Nat) :
    index ≤ majorityIndex indices ↔
      indices.length < 2 * (indices.filter (index ≤ ·)).length := by
  have hperm := descending_perm indices
  have hlength := hperm.length_eq
  have hpos := List.length_pos_of_ne_nil hne
  have hmiddle : indices.length / 2 < (descending indices).length := by omega
  rw [majorityIndex, List.getD_eq_getElem?_getD, List.getElem?_eq_getElem hmiddle,
    Option.getD_some, le_getElem_iff (pairwise_descending indices), (hperm.filter _).length_eq]
  omega

/-- More than half of the indices reach the middle one. -/
theorem length_lt_of_majorityIndex {indices : List Nat} (hne : indices ≠ []) :
    indices.length < 2 * (indices.filter (majorityIndex indices ≤ ·)).length :=
  (le_majorityIndex_iff hne _).1 (Nat.le_refl _)

/-! ## What is chosen -/

variable {site : Site} {facts : List Fact}

/-- A server and its peers are the cluster. -/
theorem Site.Fits.length_eq {config : Configuration} {peers : List ServerId}
    (h : site.Fits facts config peers) : site.ids.length = peers.length + 1 :=
  (perm_of_mem_peers h.nodup h.self_mem h.peers_nodup h.mem_peers).length_eq.symm

/-- Those of the members that reach an index. -/
def reaching (site : Site) (known : List (ServerId × Progress)) (index : Nat) : List ServerId :=
  site.id :: (known.filter (index ≤ ·.2.matched)).map Prod.fst

theorem majority_reaching {config : Configuration} {peers : List ServerId}
    {known : List (ServerId × Progress)} {term last : Nat} (hfits : site.Fits facts config peers)
    (hknown : KnownPeers facts term peers known) :
    Majority site.ids
      (reaching site known (majorityIndex (last :: known.map (·.2.matched)))) := by
  generalize hindex : majorityIndex (last :: known.map (·.2.matched)) = index
  refine Majority.of_sublist hfits.self_mem hfits.peers_nodup hfits.mem_peers
    (hknown.peers ▸ (List.filter_sublist ..).map _) ?_
  have hcount := length_lt_of_majorityIndex (List.cons_ne_nil last (known.map (·.2.matched)))
  rw [hindex, List.filter_cons, List.filter_map, List.length_cons, List.length_map] at hcount
  rw [hfits.length_eq, ← hknown.peers, List.length_map, List.length_map]
  -- the leader counts itself in, even if its own log does not reach the index
  have hle : (if decide (index ≤ last) then
      last :: (known.filter (index ≤ ·.2.matched)).map (·.2.matched)
      else (known.filter (index ≤ ·.2.matched)).map (·.2.matched)).length ≤
      (known.filter (index ≤ ·.2.matched)).length + 1 := by
    split
    · rewrite [List.length_cons, List.length_map]
      exact Nat.le_refl _
    · rw [List.length_map]
      exact Nat.le_succ _
  exact Nat.lt_of_lt_of_le hcount (Nat.mul_le_mul_left 2 hle)

/-- A leader that finds an entry of its own term at the middle index has made sure of its log up to
    there. -/
theorem chosen_of_majorityIndex {config : Configuration} {peers : List ServerId}
    {known : List (ServerId × Progress)} {term : Nat} {view : View} {log : Log}
    {elected : List Entry} (hfits : site.Fits facts config peers)
    (hknown : KnownPeers facts term peers known) (h : Possible site.ids facts view)
    (hvalid : Valid facts log.entries) (he : Fact.election term site.id elected ∈ facts)
    {index : Nat} (hindex : majorityIndex (log.last.index :: known.map (·.2.matched)) = index)
    (hpos : 0 < index) (hterm : log.termAt index = some term) :
    Chosen site.ids facts (log.entries.take index) ∧ lastTerm (log.entries.take index) = term := by
  obtain ⟨hle, hlast⟩ := (log.termAt_eq_some_iff ..).1 hterm
  have hlength : (log.entries.take index).length = index := List.length_take_of_le hle
  have hne : log.entries.take index ≠ [] := List.ne_nil_of_length_pos (by omega)
  have hbirth := (h.logsValid.of_prefix hvalid (List.take_prefix index _)).birth hne
  refine ⟨⟨hbirth, _, hindex ▸ majority_reaching hfits hknown, fun id hid => ?_⟩, hlast⟩
  rcases List.mem_cons.1 hid with rfl | hid
  · -- the leader has acknowledged the entry when it put it into the log
    obtain ⟨leader, held, he', -, hack⟩ := h.birth_elected hbirth
    rw [hlast] at he'
    obtain ⟨rfl, -⟩ := h.election_unique he' he
    exact ⟨_, hack, Nat.le_refl _⟩
  · obtain ⟨peer, hpeer, rfl⟩ := List.mem_map.1 hid
    obtain ⟨hmem, hreach⟩ := List.mem_filter.1 hpeer
    have hreach := of_decide_eq_true hreach
    obtain ⟨held, hack, hmatched⟩ := hknown.acked peer hmem (by omega)
    rw [hlast, hlength]
    exact ⟨held, hack, Nat.le_trans hreach hmatched⟩

/-! ## What a commit changes -/

namespace Server

variable {σ μ : Type} [LawfulStorage σ] [StateMachine μ] {s : Server σ μ}

/-- What a loop does to its server. If the committed index rises, the log is chosen up to there. -/
structure Commits (site : Site) (facts : List Fact) (term : Nat) (s s' : Server σ μ) : Prop where
  same : ∃ volatile machine, s' = { s with volatile, machine }
  chosen : s.volatile.committed < s'.volatile.committed →
    s'.volatile.committed ≤ s.log.length ∧
      Chosen site.ids facts (s.log.entries.take s'.volatile.committed) ∧
      lastTerm (s.log.entries.take s'.volatile.committed) = term
  hands : site.prompt → Hands s s'

omit [LawfulStorage σ] in
theorem Commits.refl (site : Site) (facts : List Fact) (term : Nat) (s : Server σ μ) :
    Commits site facts term s s :=
  ⟨⟨s.volatile, s.machine, rfl⟩, fun hlt => absurd hlt (Nat.lt_irrefl _), fun _ =>
    (Quiet.refl s).hands⟩

omit [LawfulStorage σ] in
/-- Applying touches the indices and the machine only, and commits nothing. -/
theorem applyEntries_same (s : Server σ μ) :
    ∃ volatile machine, s.applyEntries.state = { s with volatile, machine } ∧
      volatile.committed = s.volatile.committed :=
  ⟨_, _, rfl, applyNext_committed ..⟩

omit [StateMachine μ] in
/-- Nobody is elected in a term that it has not reached. -/
theorem Sound.term_le_of_elected (h : s.Sound site facts) {term : Nat} {log : List Entry}
    (he : Fact.election term site.id log ∈ facts) : term ≤ s.term := by
  have hle := h.possible.ballotsAgree.round_le (h.possible.won he).round
  rwa [View.set_self] at hle

/-- A loop commits only what is chosen. -/
theorem Sound.commitMajority (h : s.Sound site facts) {term : Nat} {elected : List Entry}
    (he : Fact.election term site.id elected ∈ facts) {known : List (ServerId × Progress)}
    (hknown : KnownPeers facts term s.peers known) :
    ∃ facts', facts ⊆ facts' ∧ (s.commitMajority term known).state.Sound site facts' ∧
      Commits site facts' term s (s.commitMajority term known).state := by
  have hrefl : ∃ facts', facts ⊆ facts' ∧ s.Sound site facts' ∧ Commits site facts' term s s :=
    ⟨facts, List.Subset.refl _, h, Commits.refl ..⟩
  unfold Server.commitMajority
  simp only
  generalize hindex : majorityIndex (s.log.last.index :: known.map (·.2.matched)) = index
  split
  · exact hrefl
  · next hnew =>
    split
    · exact hrefl
    · next hterm =>
      have hterm : s.log.termAt index = some term := by simpa using hterm
      obtain ⟨hchosen, hlast⟩ := chosen_of_majorityIndex h.fits hknown h.possible h.valid he hindex
        (by omega) hterm
      have hle := ((s.log.termAt_eq_some_iff ..).1 hterm).1
      obtain ⟨facts', hsub, hcommitted, hhands⟩ := h.commitTo (Nat.lt_of_not_le hnew) fun _ =>
        ⟨hle, Or.inr ⟨_, hchosen, by rw [hlast]; exact h.term_le_of_elected he, List.prefix_rfl⟩⟩
      rcases s.volatile.raiseCommitted_cases index with hraised | ⟨e, hraised⟩
      · -- the index is raised, and applying leaves it at that
        obtain ⟨volatile, machine, hsame, hindex'⟩ := applyEntries_same
          ({ s with volatile := { s.volatile with committed := index } } : Server σ μ)
        have hindex' : volatile.committed = index := hindex'
        rw [hsame] at hcommitted hhands
        simp only [hraised, Attempt.ok]
        have hanswer := Attempt.andThen_answer
          (({ s with volatile := { s.volatile with committed := index } } : Server σ μ).applyEntries) ()
        unfold Attempt.ok at hanswer
        rw [hanswer, hsame]
        refine ⟨facts', hsub, hcommitted, ⟨volatile, machine, rfl⟩, fun _ => ?_, hhands⟩
        show volatile.committed ≤ s.log.length ∧
          Chosen site.ids facts' (s.log.entries.take volatile.committed) ∧ _
        rw [hindex']
        exact ⟨hle, hchosen.mono hsub, hlast⟩
      · simp only [hraised]
        exact hrefl

end Server

end Quorum
