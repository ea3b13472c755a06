import Mathlib.Order.Bounds.Basic
import Quorum.Proofs.Log.Append

set_option autoImplicit false

/-! # Taking over a batch in one step

A log takes over a batch entry by entry, and each entry is compared with a log that the entries
before it may have changed. What comes of it can all the same be read off the log as it was: the
first entry of the batch that the log lacks decides, and from there on the batch replaces whatever
the log holds. `Log.splice` says so for a whole batch, and `Log.append` comes to the same. The index
that it reports is the lowest one at which the log has changed, so that whoever writes the log from
there on has written all of it; and a batch that comes twice changes nothing the second time. -/

namespace Quorum

/-! ## The closed form -/

/-- A batch is not taken if the log does not reach the position before it, if the log has another
    term there, or if the batch does not carry the indices that follow. -/
def Log.Refuses (log : Log) (batch : List Entry) (prev : Position) : Prop :=
  log.length < prev.index ∨ log.termAt prev.index ≠ some prev.term ∨
    ¬ ContiguousFrom (prev.index + 1) batch

instance (log : Log) (batch : List Entry) (prev : Position) :
    Decidable (log.Refuses batch prev) := by
  unfold Log.Refuses; infer_instance

/-- The place in a batch of the first entry that lies past the end of the log, or in whose place the
    log has an entry of another term. -/
def Log.firstLacking? (log : Log) (batch : List Entry) : Option Nat :=
  batch.findIdx? fun entry => log.termAt entry.index ≠ some entry.term

/-- What is to become of a batch, and of the entries of the log. -/
def Log.splice (log : Log) (batch : List Entry) (prev : Position) : AppendOutcome × List Entry :=
  if log.Refuses batch prev then (.rejected, log.entries)
  else
    let last := prev.index + batch.length
    match log.firstLacking? batch with
    | none => (.accepted last none, log.entries)
    | some place =>
        (.accepted last (some (prev.index + place + 1)),
          log.entries.take (prev.index + place) ++ batch.drop place)

/-- The lowest index at which two logs differ, if there is any. -/
def Log.FirstChange (log log' : Log) : Option Nat → Prop
  | none => log' = log
  | some first => IsLeast {index | log'.get? index ≠ log.get? index} first

/-! ## The first entry that a log lacks -/

/-- The entries before the first one that the log lacks are those that it has already. -/
theorem Log.firstLacking?_eq (log : Log) {batch : List Entry} {start : Nat}
    (hbatch : ContiguousFrom (start + 1) batch) :
    log.firstLacking? batch =
      if agreement (log.entries.drop start) batch < batch.length
      then some (agreement (log.entries.drop start) batch) else none := by
  induction batch generalizing start with
  | nil => simp [Log.firstLacking?]
  | cons entry rest ih =>
    obtain ⟨hindex, hrest⟩ := (contiguousFrom_cons ..).1 hbatch
    have hlater := ih hrest
    unfold Log.firstLacking? at hlater ⊢
    rw [List.findIdx?_cons, hindex, hlater, agreement_drop_cons, ← Log.termAt_succ]
    by_cases hterm : log.termAt (start + 1) = some entry.term
    · by_cases hlacks : agreement (log.entries.drop (start + 1)) rest < rest.length <;>
        simp [hterm, hlacks]
    · simp [hterm]

/-- A log that covers a batch lacks none of it. -/
theorem Log.Covers.firstLacking? {log : Log} {batch : List Entry} {prev : Position}
    (h : log.Covers batch prev) : log.firstLacking? batch = none := by
  rw [Log.firstLacking?, List.findIdx?_eq_none_iff]
  intro entry hmem
  simp [h.2 entry hmem]

/-! ## Taking over -/

theorem Log.append_of_refuses {log : Log} {batch : List Entry} {prev : Position}
    (h : log.Refuses batch prev) : log.append batch prev = (.rejected, log) := by
  unfold Log.append
  split
  · next hprev =>
    have hbatch : ¬ ContiguousFrom (prev.index + 1) batch := by
      rcases h with hpast | hterm | hbatch
      · rw [(log.termAt_eq_none_iff _).2 hpast] at hprev
        cases hprev
      · exact absurd hprev hterm
      · exact hbatch
    split
    · rfl
    · next hplaced => exact absurd ((misplaced?_eq_none_iff ..).1 hplaced) hbatch
  · rfl

/-- Entry by entry, a batch comes to the same as at once. -/
theorem Log.append_spliced (log : Log) (batch : List Entry) (prev : Position) :
    ((log.append batch prev).1, (log.append batch prev).2.entries) = log.splice batch prev := by
  unfold Log.splice
  split
  · next hrefuses => rw [Log.append_of_refuses hrefuses]
  · next htakes =>
    unfold Log.Refuses at htakes
    simp only [not_or, Nat.not_lt, not_not] at htakes
    obtain ⟨hreach, hprev, hbatch⟩ := htakes
    have happend : log.append batch prev =
        (.accepted (prev.index + batch.length) (log.placeAll batch).1, (log.placeAll batch).2) := by
      rw [Log.append, if_pos hprev, (misplaced?_eq_none_iff ..).2 hbatch]
    rw [happend, log.firstLacking?_eq hbatch]
    rcases Nat.lt_or_ge (agreement (log.entries.drop prev.index) batch) batch.length
      with hlacks | hall
    · obtain ⟨hfirst, hentries⟩ := log.placeAll_of_differs batch hreach hbatch hlacks
      rw [if_pos hlacks, hfirst, hentries]
    · rw [if_neg (Nat.not_lt.2 hall),
        log.placeAll_of_agrees batch hbatch (Nat.le_antisymm (agreement_le_right ..) hall)]

/-- There are no other reasons not to take a batch. -/
theorem Log.refuses_of_rejected {log : Log} {batch : List Entry} {prev : Position}
    (h : (log.append batch prev).1 = .rejected) : log.Refuses batch prev := by
  have hspliced := log.append_spliced batch prev
  rw [h] at hspliced
  by_contra htakes
  rw [Log.splice, if_neg htakes] at hspliced
  cases hlacking : log.firstLacking? batch <;> rw [hlacking] at hspliced <;>
    cases congrArg Prod.fst hspliced

/-- A batch that was taken has no gaps. -/
theorem Log.Splices.contiguous {log log' : Log} {batch : List Entry} {prev : Position}
    {last : Nat} {first : Option Nat} (h : log.Splices batch prev (.accepted last first) log') :
    ContiguousFrom (prev.index + 1) batch := by
  cases h with
  | has _ hbatch => exact hbatch
  | changes _ hbatch => exact hbatch

/-- The index that is reported is the lowest one that has changed. -/
theorem Log.Splices.firstChange {log log' : Log} {batch : List Entry} {prev : Position}
    {last : Nat} {first : Option Nat} (h : log.Splices batch prev (.accepted last first) log') :
    log.FirstChange log' first := by
  have hget : ∀ (log : Log) (index : Nat), log.get? (index + 1) = log.entries[index]? :=
    fun log index => by simp [Log.get?]
  cases h with
  | has => rfl
  | changes _ _ hlacks hreach hlog' =>
    have hlength := List.length_take_of_le hreach
    constructor
    · -- in its place the log has nothing, or an entry of another term
      show log'.get? _ ≠ log.get? _
      rw [hget, hget, hlog', List.getElem?_append_right (Nat.le_of_eq hlength), hlength,
        Nat.sub_self, List.getElem?_drop, Nat.add_zero, List.getElem?_eq_getElem hlacks]
      intro hsame
      rw [← List.getElem?_drop] at hsame
      exact term_ne_of_agreement hsame.symm (List.getElem?_eq_getElem hlacks) rfl
    · rintro (_ | index) hchanged
      · exact absurd rfl hchanged
      · refine Nat.succ_le_succ (Nat.le_of_not_lt fun hlt => hchanged ?_)
        rw [hget, hget, hlog', List.getElem?_append_left (hlength.symm ▸ hlt),
          List.getElem?_take_of_lt hlt]

/-- A log that covers a batch takes it without a change. -/
theorem Log.Covers.append_eq {log : Log} {batch : List Entry} {prev : Position}
    (h : log.Covers batch prev) (hbatch : ContiguousFrom (prev.index + 1) batch) :
    log.append batch prev = (.accepted (prev.index + batch.length) none, log) := by
  have htakes : ¬ log.Refuses batch prev := by
    rintro (hpast | hterm | hgap)
    · exact absurd h.1 (by rw [(log.termAt_eq_none_iff _).2 hpast]; nofun)
    · exact hterm h.1
    · exact hgap hbatch
  have hspliced := log.append_spliced batch prev
  rw [Log.splice, if_neg htakes, h.firstLacking?] at hspliced
  obtain ⟨houtcome, hentries⟩ := Prod.mk.inj hspliced
  exact Prod.ext houtcome (Log.eq_of_entries_eq hentries)

/-- A log that has given up all that a batch has changed takes the batch as before. -/
theorem Log.Splices.again {log log' : Log} {batch : List Entry} {prev : Position}
    {last common : Nat} (h : log.Splices batch prev (.accepted last (some (common + 1))) log') :
    (log'.truncateAfter common).append batch prev =
      (.accepted last (some (common + 1)), log') := by
  obtain ⟨hcommon, -, htake⟩ := h.keeps
  cases h with
  | changes hprev hbatch hlacks hreach hlog' =>
    obtain ⟨hstart, hlast⟩ := (log.termAt_eq_some_iff ..).1 hprev
    have hsame := agreement_take_agreement (log.entries.drop prev.index) batch
    generalize agreement (log.entries.drop prev.index) batch = count at *
    have hlength : (log'.truncateAfter (prev.index + count)).length = prev.index + count := by
      rw [Log.length, Log.entries_truncateAfter, htake, List.length_take_of_le hcommon]
    have htakes : ¬ (log'.truncateAfter (prev.index + count)).Refuses batch prev := by
      rintro (hpast | hterm | hgap)
      · omega
      · refine hterm ((Log.termAt_eq_some_iff ..).2 ⟨by omega, ?_⟩)
        rw [Log.entries_truncateAfter, htake, List.take_take,
          Nat.min_eq_left (Nat.le_add_right ..), hlast]
      · exact hgap hbatch
    have hlacking : (log'.truncateAfter (prev.index + count)).firstLacking? batch = some count := by
      rw [Log.firstLacking?_eq _ hbatch, Log.entries_truncateAfter, htake, List.drop_take,
        Nat.add_sub_cancel_left, hsame, if_pos hlacks]
    have hspliced := (log'.truncateAfter (prev.index + count)).append_spliced batch prev
    rw [Log.splice, if_neg htakes, hlacking] at hspliced
    obtain ⟨houtcome, hentries⟩ := Prod.mk.inj hspliced
    refine Prod.ext houtcome (Log.eq_of_entries_eq (hentries.trans ?_))
    rw [Log.entries_truncateAfter, List.take_take, Nat.min_self, htake, hlog']

/-- For every batch, what a log says to it and what the log is afterwards have the closed form; a
    batch that was taken has changed the log from the reported index on and not before, and taking
    it again changes nothing. -/
theorem Log.append_eq_splice (log : Log) (batch : List Entry) (prev : Position) :
    ((log.append batch prev).1, (log.append batch prev).2.entries) = log.splice batch prev ∧
      ContiguousFrom 1 (log.append batch prev).2.entries ∧
      ∀ last first, (log.append batch prev).1 = .accepted last first →
        log.FirstChange (log.append batch prev).2 first ∧
          (log.append batch prev).2.append batch prev =
            (.accepted last none, (log.append batch prev).2) := by
  refine ⟨log.append_spliced batch prev, (log.append batch prev).2.contiguous,
    fun last first houtcome => ?_⟩
  have hsplices := log.append_splices batch prev
  rw [houtcome] at hsplices
  obtain ⟨rfl, hcovers⟩ := hsplices.covers
  exact ⟨hsplices.firstChange, hcovers.append_eq hsplices.contiguous⟩

/-- An entry of a newer term takes the place of two old ones. -/
example :
    Log.splice ⟨[⟨1, 1, []⟩, ⟨1, 2, []⟩, ⟨1, 3, []⟩], by decide⟩ [⟨2, 2, [7]⟩] ⟨1, 1⟩ =
      (.accepted 2 (some 2), [⟨1, 1, []⟩, ⟨2, 2, [7]⟩]) := by
  decide

end Quorum
