import Quorum.Proofs.Log.Append

set_option autoImplicit false

/-! # Batches that come late, or twice

What one leader has sent may get to a follower in any order, and some of it several times. A batch
that comes late is shorter than what the follower has by now, but it does not disagree with it, and
so it takes nothing away. What the follower gives up is only what disagrees with the leader's log,
and what it was told to have taken stays.

All batches are cut from one log, the `source`. The log that takes them need not be a part of it: it
has to match the source, and then it goes on matching it. -/

namespace Quorum

/-! ## Matching -/

theorem matching_of_prefix {a b : List Entry} (h : a <+: b) : Matching a b := by
  obtain ⟨rest, rfl⟩ := h
  exact fun count hle _ _ => (List.take_append_of_le_length hle).symm

/-- Who matches a log matches every part of it. -/
theorem Matching.of_prefix {a b part : List Entry} (h : Matching a b) (hpart : part <+: b) :
    Matching a part := by
  obtain ⟨rest, rfl⟩ := hpart
  intro count hle hle' hterm
  have htake : (part ++ rest).take count = part.take count := List.take_append_of_le_length hle'
  rw [← htake] at hterm ⊢
  exact h count hle (by rw [List.length_append]; omega) hterm

/-! ## Batches of one log -/

/-- Entries with the position that they go behind. -/
structure Batch where
  prev : Position
  entries : List Entry
  deriving DecidableEq, Repr

/-- A batch that is cut from a log: the log has the position before it, and goes on from there with
    the entries of the batch. -/
structure Batch.IsCutFrom (batch : Batch) (source : Log) : Prop where
  prev : source.termAt batch.prev.index = some batch.prev.term
  entries : batch.entries <+: source.entries.drop batch.prev.index

/-- A log after some batches, whether it has taken them or not. -/
def Log.afterBatches (log : Log) (batches : List Batch) : Log :=
  batches.foldl (fun log batch => (log.append batch.entries batch.prev).2) log

theorem Log.afterBatches_append (log : Log) (batches later : List Batch) :
    log.afterBatches (batches ++ later) = (log.afterBatches batches).afterBatches later :=
  List.foldl_append

theorem Log.afterBatches_cons (log : Log) (batch : Batch) (later : List Batch) :
    log.afterBatches (batch :: later) =
      (log.append batch.entries batch.prev).2.afterBatches later := rfl

/-- Somewhere up to an index, the two logs have entries of different terms. -/
def Log.DisagreesBy (log source : Log) (index : Nat) : Prop :=
  ∃ place ≤ index, ∃ held sent, log.get? place = some held ∧ source.get? place = some sent ∧
    held.term ≠ sent.term

/-! ## One batch -/

section

variable {log log' source : Log} {batch : Batch} {sent : List Entry} {outcome : AppendOutcome}

/-- A batch that is cut from a matching log is taken as the end of a part of that log. -/
theorem Batch.IsCutFrom.exists_takes (h : batch.IsCutFrom source)
    (hmatching : Matching log.entries source.entries) :
    ∃ sent, sent <+: source.entries ∧
      log.Takes sent (log.append batch.entries batch.prev).1
        (log.append batch.entries batch.prev).2 := by
  obtain ⟨hle, hlast⟩ := (source.termAt_eq_some_iff ..).1 h.prev
  have hsent : source.entries.take batch.prev.index ++ batch.entries <+: source.entries := by
    conv_rhs => rw [← List.take_append_drop batch.prev.index source.entries]
    exact (List.prefix_append_right_inj _).2 h.entries
  exact ⟨_, hsent, (log.append_splices batch.entries batch.prev).takes
    (List.length_take_of_le hle) hlast (hmatching.of_prefix hsent)⟩

/-- A log that takes what another one sends it goes on matching that one. -/
theorem Log.Takes.matching (h : log.Takes sent outcome log') (hsent : sent <+: source.entries)
    (hmatching : Matching log.entries source.entries) :
    Matching log'.entries source.entries := by
  cases h with
  | refuses => exact hmatching
  | has => exact hmatching
  | changes _ hlog' => exact hlog' ▸ matching_of_prefix hsent

/-- What a log has in common with the one that sends, it keeps. -/
theorem Log.Takes.keeps (h : log.Takes sent outcome log') {part : List Entry}
    (hpart : part <+: log.entries) (hcomparable : Comparable part sent) :
    part <+: log'.entries := by
  cases h with
  | refuses => exact hpart
  | has => exact hpart
  | changes hlacks hlog' =>
    rw [hlog']
    exact hcomparable.resolve_right fun hlonger => hlacks (hlonger.trans hpart)

/-- What the log has taken, it has. -/
theorem Log.Takes.prefix_of_accepted {last : Nat} {first : Option Nat}
    (h : log.Takes sent (.accepted last first) log') : last = sent.length ∧ sent <+: log'.entries := by
  cases h with
  | has hsent => exact ⟨rfl, hsent⟩
  | changes _ hlog' => exact ⟨rfl, hlog' ▸ List.prefix_rfl⟩

/-- A log gives up nothing but what follows a disagreement. -/
theorem Batch.IsCutFrom.disagreesBy (h : batch.IsCutFrom source) {entry : Entry}
    (hmem : entry ∈ log.entries)
    (hgone : entry ∉ (log.append batch.entries batch.prev).2.entries) :
    log.DisagreesBy source entry.index := by
  have hsplices := log.append_splices batch.entries batch.prev
  generalize (log.append batch.entries batch.prev).1 = outcome at hsplices
  generalize (log.append batch.entries batch.prev).2 = log' at hsplices hgone
  cases hsplices with
  | refuses => exact absurd hmem hgone
  | has => exact absurd hmem hgone
  | changes _ _ hlacks hreach hlog' =>
    have hne := @term_ne_of_agreement (log.entries.drop batch.prev.index) batch.entries
    generalize agreement (log.entries.drop batch.prev.index) batch.entries = common at *
    obtain ⟨hle, before, hpart⟩ := log.contiguous.take_of_mem hmem
    -- the entry does not stand in the part that is kept
    have hlt : batch.prev.index + common < entry.index := by
      refine Nat.lt_of_not_le fun hkept => hgone ?_
      rw [hlog']
      refine List.mem_append_left _ ((List.take_prefix_take_left hkept).subset ?_)
      rw [hpart]
      exact List.mem_concat_self
    obtain ⟨held, hheld⟩ : ∃ held, log.entries[batch.prev.index + common]? = some held :=
      ⟨_, List.getElem?_eq_getElem (Nat.lt_of_lt_of_le hlt hle)⟩
    have hsource := List.prefix_iff_getElem?.1 h.entries common hlacks
    rw [List.getElem?_drop] at hsource
    refine ⟨batch.prev.index + common + 1, hlt, held, batch.entries[common], ?_, ?_, hne ?_ ?_⟩
    · simpa [Log.get?] using hheld
    · simpa [Log.get?] using hsource
    · rwa [List.getElem?_drop]
    · exact List.getElem?_eq_getElem hlacks

end

/-! ## Many batches -/

section

variable {source : Log} {batches : List Batch}

/-- The logs match after every batch. -/
theorem Log.matching_afterBatches {log : Log} (hmatching : Matching log.entries source.entries)
    (hcut : ∀ batch ∈ batches, batch.IsCutFrom source) :
    Matching (log.afterBatches batches).entries source.entries := by
  induction batches generalizing log with
  | nil => exact hmatching
  | cons batch later ih =>
    obtain ⟨hbatch, hlater⟩ := List.forall_mem_cons.1 hcut
    obtain ⟨sent, hsent, htakes⟩ := hbatch.exists_takes hmatching
    exact ih (htakes.matching hsent hmatching) hlater

/-- What a log has in common with the source, it has after every batch. -/
theorem Log.prefix_afterBatches {log : Log} (hmatching : Matching log.entries source.entries)
    (hcut : ∀ batch ∈ batches, batch.IsCutFrom source) {part : List Entry}
    (hpart : part <+: log.entries) (hsource : part <+: source.entries) :
    part <+: (log.afterBatches batches).entries := by
  induction batches generalizing log with
  | nil => exact hpart
  | cons batch later ih =>
    obtain ⟨hbatch, hlater⟩ := List.forall_mem_cons.1 hcut
    obtain ⟨sent, hsent, htakes⟩ := hbatch.exists_takes hmatching
    exact ih (htakes.matching hsent hmatching) hlater
      (htakes.keeps hpart (Comparable.of_prefix hsource hsent))

/-- Whatever batches of the source have come before and will come afterwards, in whatever order: the
    logs match after each of them, a batch takes away only what follows a disagreement, and what was
    once taken agrees with the source from then on. -/
theorem Log.taken_stays {log : Log} {earlier later : List Batch} {batch : Batch}
    (hmatching : Matching log.entries source.entries)
    (hcut : ∀ b ∈ earlier ++ batch :: later, b.IsCutFrom source) :
    let before := log.afterBatches earlier
    let after := log.afterBatches (earlier ++ [batch])
    let final := log.afterBatches (earlier ++ batch :: later)
    Matching after.entries source.entries ∧
      (∀ entry ∈ before.entries, entry ∉ after.entries → before.DisagreesBy source entry.index) ∧
      ∀ last first, (before.append batch.entries batch.prev).1 = .accepted last first →
        last ≤ source.length ∧ final.entries.take last = source.entries.take last := by
  intro before after final
  obtain ⟨hearlier, hrest⟩ := List.forall_mem_append.1 hcut
  obtain ⟨hbatch, hlater⟩ := List.forall_mem_cons.1 hrest
  have hbefore : Matching before.entries source.entries :=
    Log.matching_afterBatches hmatching hearlier
  have hafter : after = (before.append batch.entries batch.prev).2 :=
    Log.afterBatches_append log earlier [batch]
  have hfinal : final = after.afterBatches later := by
    rw [hafter, ← Log.afterBatches_cons]
    exact Log.afterBatches_append log earlier (batch :: later)
  obtain ⟨sent, hsent, htakes⟩ := hbatch.exists_takes hbefore
  rw [← hafter] at htakes
  have hmatches := htakes.matching hsent hbefore
  refine ⟨hmatches, fun entry hmem hgone => ?_, fun last first houtcome => ?_⟩
  · rw [hafter] at hgone
    exact hbatch.disagreesBy hmem hgone
  · rw [houtcome] at htakes
    obtain ⟨rfl, htaken⟩ := htakes.prefix_of_accepted
    have hkept := Log.prefix_afterBatches hmatches hlater htaken hsent
    rw [← hfinal] at hkept
    exact ⟨hsent.length_le, (List.prefix_iff_eq_take.1 hkept).symm.trans
      (List.prefix_iff_eq_take.1 hsent)⟩

end

/-- The log of a leader of term 2, which has taken over the first entry from term 1. -/
def sourceLog : Log :=
  ⟨[⟨1, 1, [1]⟩, ⟨2, 2, [2]⟩, ⟨2, 3, [3]⟩, ⟨2, 4, [4]⟩], by decide⟩

/-- A log that has gone on in term 1. -/
def staleLog : Log := ⟨[⟨1, 1, [1]⟩, ⟨1, 2, [8]⟩, ⟨1, 3, [9]⟩], by decide⟩

/-- The last batch comes first and is refused. The next one takes the place of two entries, and of
    the two that come after it one has come before, and the other should have. -/
theorem Log.taken_stays_sourceLog :
    let first : Batch := ⟨⟨2, 3⟩, [⟨2, 4, [4]⟩]⟩
    let batch : Batch := ⟨⟨1, 1⟩, [⟨2, 2, [2]⟩, ⟨2, 3, [3]⟩]⟩
    let second : Batch := ⟨.origin, [⟨1, 1, [1]⟩, ⟨2, 2, [2]⟩]⟩
    Matching staleLog.entries sourceLog.entries ∧
      (staleLog.append first.entries first.prev).1 = .rejected ∧
      (staleLog.append batch.entries batch.prev).1 = .accepted 3 (some 2) ∧
      staleLog.DisagreesBy sourceLog 3 ∧
      (staleLog.afterBatches [first, batch, second, batch]).entries.take 3 =
        sourceLog.entries.take 3 := by
  intro first batch second
  have hmatching : Matching staleLog.entries sourceLog.entries := by
    unfold Matching
    decide
  have hcut : ∀ b ∈ [first] ++ batch :: [second, batch], b.IsCutFrom sourceLog := by
    have hfirst : first.IsCutFrom sourceLog := ⟨rfl, by decide⟩
    have hbatch : batch.IsCutFrom sourceLog := ⟨rfl, by decide⟩
    have hsecond : second.IsCutFrom sourceLog := ⟨rfl, by decide⟩
    simp only [List.cons_append, List.nil_append, List.forall_mem_cons]
    exact ⟨hfirst, hbatch, hsecond, hbatch, List.forall_mem_nil _⟩
  obtain ⟨-, hremoved, hstays⟩ := Log.taken_stays hmatching hcut
  have haccepted : (staleLog.append batch.entries batch.prev).1 = .accepted 3 (some 2) := by decide
  exact ⟨hmatching, by decide, haccepted, hremoved ⟨1, 3, [9]⟩ (by decide) (by decide),
    (hstays 3 (some 2) haccepted).2⟩

end Quorum
