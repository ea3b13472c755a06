import Quorum.Proofs.Log.Lists

set_option autoImplicit false

/-! # What a batch does to a log

Entry by entry, a batch is compared with what the log holds in its place, and the first disagreement
decides: all that the log holds from there on is given up for the rest of the batch. So the result
has a closed form, in which only the number of entries counts that the log had already. -/

namespace Quorum

/-- How many entries of a batch a log has already, where `held` is what the log holds in the place
    of the batch. Entries of one index are told apart by their terms. -/
def agreement : List Entry → List Entry → Nat
  | old :: held, entry :: batch => if old.term = entry.term then agreement held batch + 1 else 0
  | _, _ => 0

theorem agreement_nil_left (batch : List Entry) : agreement [] batch = 0 := by
  unfold agreement; rfl

theorem agreement_nil_right (held : List Entry) : agreement held [] = 0 := by
  cases held <;> rfl

/-- The first entry of a batch is compared with what the log holds in its place. -/
theorem agreement_drop_cons (held : List Entry) (start : Nat) (entry : Entry)
    (batch : List Entry) :
    agreement (held.drop start) (entry :: batch) =
      if held[start]?.map Entry.term = some entry.term
      then agreement (held.drop (start + 1)) batch + 1 else 0 := by
  rw [← List.head?_drop, ← List.tail_drop]
  cases held.drop start with
  | nil => rfl
  | cons old held =>
    rw [agreement]
    simp

theorem agreement_le_left (held batch : List Entry) : agreement held batch ≤ held.length := by
  induction held generalizing batch with
  | nil => simp [agreement_nil_left]
  | cons old held ih =>
    cases batch with
    | nil => simp [agreement_nil_right]
    | cons entry batch =>
      rw [agreement]
      split
      · have := ih batch
        rw [List.length_cons]
        omega
      · omega

theorem agreement_le_right (held batch : List Entry) : agreement held batch ≤ batch.length := by
  induction held generalizing batch with
  | nil => simp [agreement_nil_left]
  | cons old held ih =>
    cases batch with
    | nil => simp [agreement_nil_right]
    | cons entry batch =>
      rw [agreement]
      split
      · have := ih batch
        rw [List.length_cons]
        omega
      · omega

/-- What the log has already, it has with the same terms. -/
theorem map_term_agreement (held batch : List Entry) :
    (held.take (agreement held batch)).map Entry.term =
      (batch.take (agreement held batch)).map Entry.term := by
  induction held generalizing batch with
  | nil => simp [agreement_nil_left]
  | cons old held ih =>
    cases batch with
    | nil => simp [agreement_nil_right]
    | cons entry batch =>
      rw [agreement]
      split
      · next hterm => simp [hterm, ih batch]
      · simp

/-- The entries behind those that the log has already are of different terms. -/
theorem term_ne_of_agreement {held batch : List Entry} {old entry : Entry}
    (hold : held[agreement held batch]? = some old)
    (hentry : batch[agreement held batch]? = some entry) : old.term ≠ entry.term := by
  induction held generalizing batch with
  | nil => simp at hold
  | cons first held ih =>
    cases batch with
    | nil => simp at hentry
    | cons first' batch =>
      rw [agreement] at hold hentry
      split at hold
      · next hterm =>
        rw [if_pos hterm] at hentry
        exact ih (by simpa using hold) (by simpa using hentry)
      · next hterm =>
        rw [if_neg hterm] at hentry
        simp only [List.getElem?_cons_zero, Option.some.injEq] at hold hentry
        rwa [← hold, ← hentry]

/-- For a log that is cut back to the entries that it has already, these are the same. -/
theorem agreement_take_agreement (held batch : List Entry) :
    agreement (held.take (agreement held batch)) batch = agreement held batch := by
  induction held generalizing batch with
  | nil => rw [List.take_nil]
  | cons old held ih =>
    cases batch with
    | nil => rw [agreement_nil_right, agreement_nil_right]
    | cons entry batch =>
      rw [agreement]
      split
      · next hterm => rw [List.take_succ_cons, agreement, if_pos hterm, ih]
      · rw [List.take_zero, agreement_nil_left]

/-! ## Placing entries -/

theorem Log.termAt_succ (log : Log) (index : Nat) :
    log.termAt (index + 1) = log.entries[index]?.map Entry.term := by
  simp [Log.termAt]

/-- A batch that goes behind the last entry is put there. -/
theorem Log.placeAll_end (log : Log) (batch : List Entry)
    (hbatch : ContiguousFrom (log.length + 1) batch) :
    (log.placeAll batch).2.entries = log.entries ++ batch ∧
      (log.placeAll batch).1 = if batch = [] then none else some (log.length + 1) := by
  induction batch generalizing log with
  | nil => simp [Log.placeAll]
  | cons entry rest ih =>
    obtain ⟨hindex, hrest⟩ := (contiguousFrom_cons ..).1 hbatch
    have hterm : log.termAt entry.index = none := (log.termAt_eq_none_iff _).2 (by omega)
    have hplace : log.place entry = (true, log.push entry.term entry.command) := by
      rw [Log.place, hterm]
    have hpush : (log.push entry.term entry.command).entries = log.entries ++ [entry] := by
      rw [Log.entries_push, ← hindex]
    have hlength : (log.push entry.term entry.command).length = log.length + 1 := by
      simp [Log.length]
    obtain ⟨hentries, -⟩ := ih (log.push entry.term entry.command) (by rwa [hlength])
    rw [Log.placeAll, hplace]
    refine ⟨?_, by simp [hindex]⟩
    rw [hentries, hpush, List.append_assoc, List.singleton_append]

/-- An entry that the log has already is left alone. -/
theorem Log.place_of_agrees (log : Log) {entry : Entry} {start : Nat}
    (hindex : entry.index = start + 1) (hterm : log.termAt (start + 1) = some entry.term) :
    log.place entry = (false, log) := by
  rw [Log.place, hindex, hterm]
  simp

/-- An entry that the log does not have ends up behind the part before its place. -/
theorem Log.place_of_differs (log : Log) {entry : Entry} {start : Nat}
    (hindex : entry.index = start + 1) (hstart : start ≤ log.length)
    (hdiffers : log.termAt (start + 1) ≠ some entry.term) :
    (log.place entry).1 = true ∧ (log.place entry).2.entries = log.entries.take start ++ [entry] := by
  rw [Log.place, hindex]
  cases hterm : log.termAt (start + 1) with
  | none =>
    have hend : log.length = start := by
      have := (log.termAt_eq_none_iff _).1 hterm
      omega
    refine ⟨rfl, ?_⟩
    show (log.push entry.term entry.command).entries = _
    rw [Log.entries_push, hend, ← hindex, List.take_of_length_le (Nat.le_of_eq hend)]
  | some term =>
    have hne : term ≠ entry.term := fun heq => hdiffers (heq ▸ hterm)
    have hlength : (log.truncateAfter start).length = start := by
      rw [Log.length, Log.entries_truncateAfter, List.length_take_of_le hstart]
    simp only [if_neg hne, Nat.add_sub_cancel, true_and]
    rw [Log.entries_push, hlength, ← hindex, Log.entries_truncateAfter]

/-- A batch that the log has already changes nothing. -/
theorem Log.placeAll_of_agrees (log : Log) (batch : List Entry) {start : Nat}
    (hbatch : ContiguousFrom (start + 1) batch)
    (hall : agreement (log.entries.drop start) batch = batch.length) :
    log.placeAll batch = (none, log) := by
  induction batch generalizing start with
  | nil => rfl
  | cons entry rest ih =>
    obtain ⟨hindex, hrest⟩ := (contiguousFrom_cons ..).1 hbatch
    rw [agreement_drop_cons, ← Log.termAt_succ] at hall
    split at hall
    · next hterm =>
      rw [Log.placeAll, log.place_of_agrees hindex hterm]
      simp [ih hrest (by simpa using hall)]
    · simp at hall

/-- Of a batch that the log does not have as a whole, what it lacks is put behind what it has. -/
theorem Log.placeAll_of_differs (log : Log) (batch : List Entry) {start : Nat}
    (hstart : start ≤ log.length) (hbatch : ContiguousFrom (start + 1) batch)
    (hlacks : agreement (log.entries.drop start) batch < batch.length) :
    (log.placeAll batch).1 = some (start + agreement (log.entries.drop start) batch + 1) ∧
      (log.placeAll batch).2.entries =
        log.entries.take (start + agreement (log.entries.drop start) batch) ++
          batch.drop (agreement (log.entries.drop start) batch) := by
  induction batch generalizing start with
  | nil => simp at hlacks
  | cons entry rest ih =>
    obtain ⟨hindex, hrest⟩ := (contiguousFrom_cons ..).1 hbatch
    rw [agreement_drop_cons, ← Log.termAt_succ] at hlacks ⊢
    by_cases hterm : log.termAt (start + 1) = some entry.term
    · rw [if_pos hterm] at hlacks ⊢
      have hle : start + 1 ≤ log.length := ((log.termAt_eq_some_iff ..).1 hterm).1
      obtain ⟨hfirst, hentries⟩ := ih hle hrest (by simpa using hlacks)
      rw [Log.placeAll, log.place_of_agrees hindex hterm]
      refine ⟨?_, ?_⟩
      · simp only [Bool.false_eq_true, if_false, hfirst]
        congr 1
        omega
      · rw [List.drop_succ_cons, ← Nat.add_assoc, Nat.add_right_comm]
        exact hentries
    · -- all of the batch is put behind the part before its place
      obtain ⟨hchanged, hplaced⟩ := log.place_of_differs hindex hstart hterm
      have hlength : (log.place entry).2.length = start + 1 := by
        rw [Log.length, hplaced, List.length_append, List.length_take_of_le hstart]
        rfl
      obtain ⟨hentries, -⟩ := (log.place entry).2.placeAll_end rest (by rwa [hlength])
      rw [if_neg hterm, Log.placeAll]
      simp [hchanged, hindex, hentries, hplaced]

/-! ## Taking over a batch -/

/-- The log holds the position that a batch goes behind and, entry by entry, the terms of the
    batch. -/
def Log.Covers (log : Log) (batch : List Entry) (prev : Position) : Prop :=
  log.termAt prev.index = some prev.term ∧
    ∀ entry ∈ batch, log.termAt entry.index = some entry.term

/-- A log that goes on where another one ends covers what that one covers. -/
theorem Log.Covers.of_prefix {log log' : Log} {batch : List Entry} {prev : Position}
    (h : log.Covers batch prev) (hbegins : log.entries <+: log'.entries) :
    log'.Covers batch prev := by
  have hsame : ∀ index term, log.termAt index = some term → log'.termAt index = some term := by
    intro index term hterm
    obtain ⟨hle, hlast⟩ := (log.termAt_eq_some_iff ..).1 hterm
    obtain ⟨rest, hrest⟩ := hbegins
    refine (log'.termAt_eq_some_iff ..).2 ⟨?_, ?_⟩
    · rw [Log.length, ← hrest, List.length_append]
      exact Nat.le_add_right_of_le hle
    · rw [← hrest, List.take_append_of_le_length hle, hlast]
  exact ⟨hsame _ _ h.1, fun entry hmem => hsame _ _ (h.2 entry hmem)⟩

/-- What can become of a log that is given a batch. -/
inductive Log.Splices (log : Log) (batch : List Entry) (prev : Position) :
    AppendOutcome → Log → Prop where
  /-- The batch is not taken. -/
  | refuses : log.Splices batch prev .rejected log
  /-- The log has all of it. -/
  | has (hprev : log.termAt prev.index = some prev.term)
      (hbatch : ContiguousFrom (prev.index + 1) batch)
      (hall : agreement (log.entries.drop prev.index) batch = batch.length) :
      log.Splices batch prev (.accepted (prev.index + batch.length) none) log
  /-- Behind the entries that the log has already, it takes those that it lacks. -/
  | changes {log' : Log} (hprev : log.termAt prev.index = some prev.term)
      (hbatch : ContiguousFrom (prev.index + 1) batch)
      (hlacks : agreement (log.entries.drop prev.index) batch < batch.length)
      (hreach : prev.index + agreement (log.entries.drop prev.index) batch ≤ log.length)
      (hlog' : log'.entries =
        log.entries.take (prev.index + agreement (log.entries.drop prev.index) batch) ++
          batch.drop (agreement (log.entries.drop prev.index) batch)) :
      log.Splices batch prev
        (.accepted (prev.index + batch.length)
          (some (prev.index + agreement (log.entries.drop prev.index) batch + 1))) log'

theorem Log.append_splices (log : Log) (batch : List Entry) (prev : Position) :
    log.Splices batch prev (log.append batch prev).1 (log.append batch prev).2 := by
  unfold Log.append
  split
  · next hprev =>
    cases hplaced : misplaced? (prev.index + 1) batch with
    | some _ => exact .refuses
    | none =>
      have hbatch := (misplaced?_eq_none_iff ..).1 hplaced
      have hstart := ((log.termAt_eq_some_iff ..).1 hprev).1
      have hreach := agreement_le_left (log.entries.drop prev.index) batch
      rw [List.length_drop] at hreach
      rcases Nat.eq_or_lt_of_le (agreement_le_right (log.entries.drop prev.index) batch)
        with hall | hlacks
      · rw [log.placeAll_of_agrees batch hbatch hall]
        exact .has hprev hbatch hall
      · obtain ⟨hfirst, hentries⟩ := log.placeAll_of_differs batch hstart hbatch hlacks
        simp only [hfirst]
        refine .changes hprev hbatch hlacks ?_ hentries
        unfold Log.length at *
        omega
  · exact .refuses

theorem Log.splices_of_append {log log' : Log} {batch : List Entry} {prev : Position}
    {outcome : AppendOutcome} (h : log.append batch prev = (outcome, log')) :
    log.Splices batch prev outcome log' := by
  have hsplices := log.append_splices batch prev
  rwa [h] at hsplices

/-- An entry of a batch has its place by its index. -/
theorem ContiguousFrom.getElem_of_mem {first : Nat} {entries : List Entry}
    (h : ContiguousFrom first entries) {entry : Entry} (hmem : entry ∈ entries) :
    ∃ place, ∃ _ : place < entries.length, entry.index = first + place ∧
      entries[place] = entry := by
  obtain ⟨place, hplace, hget⟩ := List.getElem_of_mem hmem
  refine ⟨place, hplace, ?_, hget⟩
  have hindex := congrArg (·[place]?) h
  simpa [hplace, hget, List.getElem?_range'] using hindex

/-- A log whose entries behind a position have the terms of a batch covers it. -/
theorem Log.covers_of_map_term {log : Log} {batch : List Entry} {prev : Position}
    (hprev : log.termAt prev.index = some prev.term)
    (hbatch : ContiguousFrom (prev.index + 1) batch)
    (hterms : batch.map Entry.term <+: (log.entries.drop prev.index).map Entry.term) :
    log.Covers batch prev := by
  refine ⟨hprev, fun entry hmem => ?_⟩
  obtain ⟨place, hplace, hindex, hget⟩ := hbatch.getElem_of_mem hmem
  have hheld := List.prefix_iff_getElem?.1 hterms place (by rwa [List.length_map])
  rw [List.getElem?_map, List.getElem?_drop, List.getElem_map, hget] at hheld
  rw [hindex, Nat.add_right_comm, Log.termAt_succ, hheld]

/-- A batch that was taken ends where the answer says, and the log covers it. -/
theorem Log.Splices.covers {log log' : Log} {batch : List Entry} {prev : Position} {last : Nat}
    {first : Option Nat} (h : log.Splices batch prev (.accepted last first) log') :
    last = prev.index + batch.length ∧ log'.Covers batch prev := by
  have hterms := map_term_agreement (log.entries.drop prev.index) batch
  cases h with
  | has hprev hbatch hall =>
    refine ⟨rfl, Log.covers_of_map_term hprev hbatch ?_⟩
    rw [hall, List.take_length] at hterms
    rewrite [← hterms]
    exact (List.take_prefix ..).map _
  | changes hprev hbatch _ hreach hlog' =>
    obtain ⟨hstart, hlast⟩ := (log.termAt_eq_some_iff ..).1 hprev
    generalize agreement (log.entries.drop prev.index) batch = common at hterms hreach hlog'
    have hlength : prev.index ≤ (log.entries.take (prev.index + common)).length := by
      rw [List.length_take_of_le hreach]
      omega
    refine ⟨rfl, Log.covers_of_map_term ?_ hbatch ?_⟩
    · refine (log'.termAt_eq_some_iff ..).2 ⟨?_, ?_⟩
      · rw [Log.length, hlog', List.length_append]
        omega
      · rw [hlog', List.take_append_of_le_length hlength, List.take_take,
          Nat.min_eq_left (Nat.le_add_right ..), hlast]
    · have hdrop : log'.entries.drop prev.index =
          (log.entries.drop prev.index).take common ++ batch.drop common := by
        rw [hlog', List.drop_append_of_le_length hlength, List.drop_take,
          Nat.add_sub_cancel_left]
      rewrite [hdrop, List.map_append, hterms, ← List.map_append, List.take_append_drop]
      exact List.prefix_rfl

/-- The log reaches as far as the answer says. -/
theorem Log.Splices.last_le {log log' : Log} {batch : List Entry} {prev : Position} {last : Nat}
    {first : Option Nat} (h : log.Splices batch prev (.accepted last first) log') :
    last ≤ log'.length := by
  cases h with
  | has hprev _ hall =>
    have hstart := ((log.termAt_eq_some_iff ..).1 hprev).1
    have hheld := agreement_le_left (log.entries.drop prev.index) batch
    rw [hall, List.length_drop] at hheld
    unfold Log.length at hstart ⊢
    omega
  | changes _ _ hlacks hreach hlog' =>
    rw [Log.length, hlog', List.length_append, List.length_take_of_le hreach, List.length_drop]
    omega

/-- What a batch changes lies behind what the log keeps. -/
theorem Log.Splices.keeps {log log' : Log} {batch : List Entry} {prev : Position}
    {last common : Nat} (h : log.Splices batch prev (.accepted last (some (common + 1))) log') :
    common ≤ log.length ∧ common ≤ log'.length ∧
      log'.entries.take common = log.entries.take common := by
  cases h with
  | changes _ _ _ hreach hlog' =>
    have hlength := List.length_take_of_le hreach
    refine ⟨hreach, ?_, ?_⟩
    · rw [Log.length, hlog', List.length_append, hlength]
      omega
    · rw [hlog', List.take_append_of_le_length (Nat.le_of_eq hlength.symm), List.take_take,
        Nat.min_self]

/-! ## Taking over a leader's entries -/

/-- Where the two logs have entries of the same index and term, they agree up to there. -/
def Matching (a b : List Entry) : Prop :=
  ∀ count, count ≤ a.length → count ≤ b.length →
    lastTerm (a.take count) = lastTerm (b.take count) → a.take count = b.take count

theorem lastTerm_eq_of_map_term {a b : List Entry} (h : a.map Entry.term = b.map Entry.term) :
    lastTerm a = lastTerm b := by
  rcases List.eq_nil_or_concat a with rfl | ⟨before, entry, rfl⟩
  · rw [List.map_nil] at h
    rw [List.map_eq_nil_iff.1 h.symm]
  · rcases List.eq_nil_or_concat b with rfl | ⟨before', entry', rfl⟩
    · simp at h
    · simp only [List.concat_eq_append, List.map_append, List.map_cons, List.map_nil] at h
      simpa using (List.append_inj' h rfl).2

theorem lastTerm_append {a b : List Entry} (hb : b ≠ []) : lastTerm (a ++ b) = lastTerm b := by
  obtain ⟨before, entry, rfl⟩ := (List.eq_nil_or_concat b).resolve_left hb
  rw [List.concat_eq_append, ← List.append_assoc, lastTerm_concat, lastTerm_concat]

/-- Two matching logs have in common what a comparison of the terms finds. -/
theorem Matching.take_agreement {held before batch : List Entry}
    (h : Matching held (before ++ batch)) (hstart : before.length ≤ held.length)
    (hlast : lastTerm (held.take before.length) = lastTerm before) :
    let count := agreement (held.drop before.length) batch
    held.take (before.length + count) = before ++ batch.take count := by
  intro count
  have hreach := agreement_le_left (held.drop before.length) batch
  have hreach' := agreement_le_right (held.drop before.length) batch
  rw [List.length_drop] at hreach
  have htake : (before ++ batch).take (before.length + count) = before ++ batch.take count :=
    List.take_length_add_append count
  rw [← htake]
  refine h _ (by omega) (by rw [List.length_append]; omega) ?_
  rw [htake, List.take_add]
  have hmap : lastTerm ((held.drop before.length).take count) = lastTerm (batch.take count) :=
    lastTerm_eq_of_map_term (map_term_agreement ..)
  rcases Nat.eq_zero_or_pos count with hzero | hpos
  · rw [hzero, List.take_zero, List.take_zero, List.append_nil, List.append_nil, hlast]
  · rw [lastTerm_append, lastTerm_append, hmap]
    · exact List.ne_nil_of_length_pos (by rw [List.length_take]; omega)
    · exact List.ne_nil_of_length_pos (by rw [List.length_take, List.length_drop]; omega)

/-- They have no more in common than that. -/
theorem length_le_of_agreement {held before batch part : List Entry}
    (hheld : part <+: held) (hsent : part <+: before ++ batch) :
    part.length ≤ before.length + agreement (held.drop before.length) batch := by
  by_contra hlong
  have hpart : before.length + agreement (held.drop before.length) batch < part.length := by omega
  have hold := List.prefix_iff_getElem?.1 hheld _ hpart
  have hentry := List.prefix_iff_getElem?.1 hsent _ hpart
  rw [← List.getElem?_drop] at hold
  rw [List.getElem?_append_right (by omega), Nat.add_sub_cancel_left] at hentry
  exact term_ne_of_agreement hold hentry rfl

/-- What can become of a log that is sent the end of another one. -/
inductive Log.Takes (log : Log) (sent : List Entry) : AppendOutcome → Log → Prop where
  /-- The entries are not taken. -/
  | refuses : log.Takes sent .rejected log
  /-- The log has all of them. -/
  | has (hsent : sent <+: log.entries) : log.Takes sent (.accepted sent.length none) log
  /-- The other log takes the place of this one. They have the first `common` entries in common, and
      no more. -/
  | changes {common : Nat} {log' : Log} (hsent : ¬ sent <+: log.entries)
      (hlog' : log'.entries = sent) (hcommon : common < sent.length) (hlength : common ≤ log.length)
      (htake : log.entries.take common = sent.take common)
      (hlongest : ∀ part, part <+: log.entries → part <+: sent → part.length ≤ common) :
      log.Takes sent (.accepted sent.length (some (common + 1))) log'

/-- A batch that is the end of a matching log either changes nothing or makes the two the same. -/
theorem Log.Splices.takes {log log' : Log} {before batch : List Entry} {prev : Position}
    {outcome : AppendOutcome} (h : log.Splices batch prev outcome log')
    (hbefore : before.length = prev.index) (hprev : lastTerm before = prev.term)
    (hmatching : Matching log.entries (before ++ batch)) :
    log.Takes (before ++ batch) outcome log' := by
  have hlength : (before ++ batch).length = prev.index + batch.length := by
    rw [List.length_append, hbefore]
  -- the position that the batch goes behind is where the two logs are known to agree
  have htake (h : log.termAt prev.index = some prev.term) :
      log.entries.take (prev.index + agreement (log.entries.drop prev.index) batch) =
        before ++ batch.take (agreement (log.entries.drop prev.index) batch) := by
    obtain ⟨hstart, hlast⟩ := (log.termAt_eq_some_iff ..).1 h
    rw [← hbefore] at hstart hlast ⊢
    exact hmatching.take_agreement hstart (hlast.trans hprev.symm)
  have hlongest : ∀ part, part <+: log.entries → part <+: before ++ batch →
      part.length ≤ prev.index + agreement (log.entries.drop prev.index) batch :=
    fun part hheld hsent => hbefore ▸ length_le_of_agreement hheld hsent
  cases h with
  | refuses => exact .refuses
  | has hterm _ hall =>
    have htake := htake hterm
    rw [hall, List.take_length] at htake
    rw [← hlength]
    exact .has (htake ▸ List.take_prefix ..)
  | changes hterm _ hlacks hreach hlog' =>
    have htake := htake hterm
    rw [← hlength]
    refine .changes (fun hsent => ?_) ?_ (by omega) hreach ?_ hlongest
    · have := hlongest _ hsent List.prefix_rfl
      omega
    · rw [hlog', htake, List.append_assoc, List.take_append_drop]
    · rw [htake, ← hbefore, List.take_length_add_append]

end Quorum
