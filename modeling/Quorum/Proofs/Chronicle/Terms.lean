import Mathlib.Data.List.Induction
import Quorum.Proofs.Chronicle.Logs

set_option autoImplicit false

/-! # Terms

The terms in a log never fall. With a former leader that goes on sending, a member may hold entries
of a later term than its own. Should it stand for election then, it is too late: more than half of
the members have gone past its round, and cannot vote in it any more. -/

namespace Quorum.Chronicle

variable {ids : List ServerId} {facts : List Fact} {view : View}

/-- More than half of the members have seen a round go by without a vote for the candidate. -/
def Missed (ids : List ServerId) (facts : List Fact) (view : View) (term : Nat)
    (candidate : ServerId) : Prop :=
  ∃ group, Majority ids group ∧ ∀ voter ∈ group,
    (∀ log, Fact.vote voter term candidate log ∉ facts) ∧
      (term < (view voter).term ∨ ∃ other log, Fact.vote voter term other log ∈ facts)

/-- A candidate whose log has entries of the term for which it stands, or of a later one, comes too
    late. -/
theorem Possible.missed (h : Possible ids facts view) {term : Nat} {candidate : ServerId}
    {log : List Entry} (hround : Fact.round term candidate log ∈ facts) {entry : Entry}
    (hentry : entry ∈ log) (hterm : term ≤ entry.term) : Missed ids facts view term candidate := by
  induction h with
  | blank => simp at hround
  | @stand facts view id term' h hterm' ih =>
    have hle := h.ballotsAgree.vote_le
    simp only [List.mem_cons, reduceCtorEq, false_or, Fact.round.injEq] at hround
    rcases hround with ⟨rfl, rfl, rfl⟩ | hround
    · -- somebody was elected in the term of the entry before
      obtain ⟨part, hpart, hne, hlast⟩ := exists_prefix_of_mem hentry
      have hbirth := (h.logsValid.of_prefix (h.logsValid.member candidate) hpart).birth hne
      obtain ⟨leader, elected, he, -, -⟩ := h.birth_elected hbirth
      obtain ⟨group, hgroup, hvotes⟩ := (h.won he).votes
      refine ⟨group, hgroup, fun voter hvoter => ?_⟩
      obtain ⟨held, hvote⟩ := hvotes voter hvoter
      have hreached := hle hvote
      have hother : voter ≠ candidate := by
        rintro rfl
        omega
      rw [View.set_of_ne _ _ hother]
      refine ⟨fun held' hvote' => ?_, ?_⟩
      · have hold : Fact.vote voter term candidate held' ∈ facts := by simpa [hother] using hvote'
        obtain ⟨log', hround, -⟩ := h.exists_round hold
        have hreached' := h.ballotsAgree.round_le hround
        omega
      · rcases Nat.lt_or_ge term (view voter).term with hlt | hge
        · exact Or.inl hlt
        · obtain rfl : lastTerm part = term := by omega
          exact Or.inr ⟨leader, held, by simp [hvote]⟩
    · obtain ⟨group, hgroup, hmissed⟩ := ih hround
      refine ⟨group, hgroup, fun voter hvoter => ?_⟩
      have := hmissed voter hvoter
      grind
  | @grant facts view id candidate' log' h hvote hround' hlast ih =>
    have heq := h.ballotsAgree.vote_eq
    obtain ⟨group, hgroup, hmissed⟩ := ih (by simpa using hround)
    refine ⟨group, hgroup, fun voter hvoter => ?_⟩
    have := hmissed voter hvoter
    grind
  | @adopt facts view id term' h hlt ih | @rest facts view id h ih
  | @win facts view id term' group' h hrun hgroup' hvotes ih
  | @push facts view id entry' h hlead hindex ih | @send facts view id request log' elected h _ _ _ _ ih
  | @keep facts view id request log' h _ _ _ _ ih | @replace facts view id request log' h _ _ _ _ ih
  | @cut facts view id request log' common h _ _ _ _ _ _ ih | @crash facts view id log' h _ _ ih
  | @note facts view id log' chosen h _ _ _ _ ih =>
    -- the group has missed the round, and no vote is added
    obtain ⟨group, hgroup, hmissed⟩ := ih (by simpa using hround)
    refine ⟨group, hgroup, fun voter hvoter => ?_⟩
    have := hmissed voter hvoter
    grind

/-- Who is elected has only entries of earlier terms. -/
theorem Possible.term_lt_of_elected (h : Possible ids facts view) {term : Nat} {leader : ServerId}
    {log : List Entry} (he : Fact.election term leader log ∈ facts) {entry : Entry}
    (hentry : entry ∈ log) : entry.term < term := by
  by_contra hge
  obtain ⟨group, hgroup, hvotes⟩ := (h.won he).votes
  obtain ⟨group', hgroup', hmissed⟩ := h.missed (h.won he).round hentry (by omega)
  obtain ⟨voter, hvoter, hvoter'⟩ := hgroup.exists_mem_both hgroup'
  obtain ⟨held, hvote⟩ := hvotes voter hvoter
  exact (hmissed voter hvoter').1 held hvote

/-- A leader has no entries of later terms than its own. -/
theorem Possible.term_le_of_leads (h : Possible ids facts view) {id : ServerId} {term : Nat}
    (hlead : (view id).standing = .leading term) {entry : Entry} (hentry : entry ∈ (view id).log) :
    entry.term ≤ term := by
  induction h with
  | blank => simp at hlead
  | @win facts view id' term' group h hrun hgroup hvotes ih =>
    have hnew : Fact.election term' id' (view id').log ∈
        Fact.ack id' term' (view id').log :: .election term' id' (view id').log :: facts := by simp
    by_cases hid : id = id'
    · subst hid
      rw [View.set_self] at hlead hentry
      obtain rfl : term' = term := Standing.leading.inj hlead
      have hwin := h.win id term' group hrun hgroup hvotes
      exact Nat.le_of_lt (hwin.term_lt_of_elected hnew hentry)
    · rw [View.set_of_ne _ _ hid] at hlead hentry
      exact ih hlead hentry
  | _ => grind

/-- The last entry of a log has the latest term. -/
theorem Possible.term_le_of_birth (h : Possible ids facts view) {log : List Entry}
    (hbirth : Fact.birth log ∈ facts) {entry : Entry} (hentry : entry ∈ log) :
    entry.term ≤ lastTerm log := by
  induction h with
  | blank => simp at hbirth
  | push id entry' h hlead hindex ih =>
    have hle := @Possible.term_le_of_leads _ _ _ h _ _ hlead entry
    simp only [List.mem_cons, reduceCtorEq, false_or, Fact.birth.injEq] at hbirth
    rcases hbirth with rfl | hbirth
    · rw [lastTerm_concat]
      rcases List.mem_append.1 hentry with hentry | hentry
      · exact hle hentry
      · exact Nat.le_of_eq (congrArg _ (List.mem_singleton.1 hentry))
    · exact ih hbirth
  | _ => grind

theorem Possible.lastTerm_le (h : Possible ids facts view) {log part : List Entry}
    (hlog : Valid facts log) (hpart : part <+: log) : lastTerm part ≤ lastTerm log := by
  rcases List.eq_nil_or_concat part with rfl | ⟨before, entry, rfl⟩
  · simp
  · have hentry : entry ∈ log := hpart.subset (by simp)
    rw [List.concat_eq_append, lastTerm_concat]
    exact h.term_le_of_birth (hlog.birth (List.ne_nil_of_mem hentry)) hentry

/-- The terms of a log never fall. -/
theorem Possible.terms_sorted (h : Possible ids facts view) {log : List Entry}
    (hlog : Valid facts log) : log.Pairwise fun a b => a.term ≤ b.term := by
  induction log using List.reverseRecOn with
  | nil => exact List.Pairwise.nil
  | append_singleton before entry ih =>
    refine List.pairwise_append.2 ⟨ih (h.logsValid.of_prefix hlog (List.prefix_append ..)),
      List.pairwise_singleton .., fun a ha b hb => ?_⟩
    rw [List.mem_singleton.1 hb]
    simpa using h.term_le_of_birth (hlog.birth (by simp)) (List.mem_append_left _ ha)

end Quorum.Chronicle
