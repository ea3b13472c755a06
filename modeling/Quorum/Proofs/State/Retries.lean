import Quorum.Proofs.Log.Splice
import Quorum.Proofs.State.Failures

set_option autoImplicit false

/-! # A failed write of the log is made good by trying again

One change of the log is two calls to the disk, and either can fail: what is left in memory is then
shorter than the log was, and what is left on the disk may be the old end of the log or nothing at
its place. Whoever tries the same change again, as often as it fails, ends up where a disk that
never fails would have brought him with the first attempt. What carries this over the attempts is
that the log, cut back to where the change begins, is still to be changed in the same way. -/

namespace Quorum.DurableState

variable {σ : Type} [LawfulStorage σ]

/-! ## Operations that change the log -/

/-- The operation is to change the log: a batch that is taken and that the log does not have, or a
    command of the present term. -/
def ChangesLog (s : DurableState σ) : Operation → Prop
  | .append batch prev =>
      (s.log.append batch prev).1 ≠ .rejected ∧ (s.log.append batch prev).2 ≠ s.log
  | .appendCommand term _ => term = s.term
  | .openTerm | .resetTerm _ | .adoptTerm _ | .giveVote _ | .grantVote .. | .reload => False

instance (s : DurableState σ) (op : Operation) : Decidable (s.ChangesLog op) := by
  unfold ChangesLog
  split <;> infer_instance

/-- What a log is to become by an operation, what the operation is to answer, and how many entries
    at the beginning of the log stay in their place. -/
inductive Rewrites (s : DurableState σ) : Operation → Response → Log → Nat → Prop where
  | append {batch : List Entry} {prev : Position} {last common : Nat} {log : Log}
      (htaken : s.log.append batch prev = (.accepted last (some (common + 1)), log)) :
      Rewrites s (.append batch prev) (.appended (.accepted last (some (common + 1)))) log common
  | appendCommand {term : Nat} {command : Bytes} (hterm : s.term = term) :
      Rewrites s (.appendCommand term command) (.put (some (s.log.next term command)))
        (s.log.push term command) s.log.length

omit [LawfulStorage σ] in
theorem ChangesLog.exists_rewrites {s : DurableState σ} {op : Operation} (h : s.ChangesLog op) :
    ∃ response log common, s.Rewrites op response log common := by
  cases op with
  | append batch prev =>
    obtain ⟨htaken, hchanged⟩ := h
    have hsplices := s.log.append_splices batch prev
    generalize hafter : s.log.append batch prev = after at htaken hchanged hsplices
    obtain ⟨outcome, log⟩ := after
    cases hsplices with
    | refuses => exact absurd rfl htaken
    | has => exact absurd rfl hchanged
    | changes => exact ⟨_, log, _, .append hafter⟩
  | appendCommand term command => exact ⟨_, _, _, .appendCommand (Eq.symm h)⟩
  | openTerm | resetTerm | adoptTerm | giveVote | grantVote | reload => exact False.elim h

namespace Rewrites

variable {s : DurableState σ} {op : Operation} {response : Response} {log : Log} {common : Nat}

omit [LawfulStorage σ] in
/-- What stays in its place is in both logs. -/
theorem keeps (h : s.Rewrites op response log common) :
    common ≤ s.log.length ∧ common ≤ log.length ∧
      log.entries.take common = s.log.entries.take common := by
  cases h with
  | append htaken => exact (Log.splices_of_append htaken).keeps
  | appendCommand =>
    refine ⟨Nat.le_refl _, ?_, ?_⟩
    · simp [Log.length]
    · rw [Log.entries_push]
      exact List.take_append_of_le_length (Nat.le_refl _)

/-- The operation writes the log that it is to become. -/
theorem perform_eq (h : s.Rewrites op response log common) :
    s.perform op =
      (({ s with log } : DurableState σ).writeLogFrom (common + 1) s.log.length).map
        fun _ => response := by
  cases h with
  | append htaken =>
    show (s.append _ _).map _ = _
    unfold DurableState.append
    simp only [htaken]
    exact Attempt.map_answer ..
  | appendCommand hterm =>
    show (s.appendCommand _ _).map _ = _
    unfold DurableState.appendCommand
    rw [if_neg (not_not_intro hterm)]
    exact Attempt.map_answer ..

omit [LawfulStorage σ] in
/-- A log that is cut back to what stays in its place is to become the same. -/
theorem again (h : s.Rewrites op response log common) {s' : DurableState σ}
    (hlog : s'.log = log.truncateAfter common) (hterm : s'.term = s.term) :
    s'.Rewrites op response log common := by
  cases h with
  | append htaken => exact .append (by rw [hlog]; exact (Log.splices_of_append htaken).again)
  | @appendCommand term command hsame =>
    have hback : s'.log = s.log := by
      rw [hlog]
      refine Log.eq_of_entries_eq ?_
      rw [Log.entries_truncateAfter, Log.entries_push]
      exact List.take_left
    have h : s'.Rewrites (.appendCommand term command) _ _ _ := .appendCommand (hterm.trans hsame)
    rwa [hback] at h

end Rewrites

/-! ## Attempts -/

namespace Rewrites

variable {op : Operation} {response : Response} {log : Log} {common : Nat}

theorem writesLog {s : DurableState σ} (h : s.Rewrites op response log common)
    (hcoherent : s.Coherent) :
    s.WritesLog log common
      (({ s with log } : DurableState σ).writeLogFrom (common + 1) s.log.length) :=
  writesLog_writeLogFrom hcoherent h.keeps.1 h.keeps.2.2

/-- If a call fails, the log is cut back to what stays in its place. If none does, memory and disk
    come to hold what the log is to become. -/
theorem attempt_cases {s : DurableState (Watched σ)} (h : s.Rewrites op response log common)
    (hcoherent : s.Coherent) :
    (s.CallFails op ∧ ∃ e disk, s.perform op = .error (.storage e)
      { s with log := log.truncateAfter common, disk, unsyncedFrom := some (common + 1) }) ∨
    (¬ s.CallFails op ∧ ∃ disk,
      s.perform op = .ok response { s with log, disk, unsyncedFrom := none } ∧
        contents disk = { contents s.disk with log := log.entries }) := by
  have hwrites := h.writesLog hcoherent
  have htells := tells_writeLogFrom { s with log } (common + 1) s.log.length
  rw [CallFails, h.perform_eq]
  generalize ({ s with log } : DurableState (Watched σ)).writeLogFrom _ s.log.length = written
    at hwrites htells ⊢
  cases hwrites with
  | done disk hdisk => exact .inr ⟨Nat.not_lt.2 (Nat.le_of_eq htells), disk, rfl, hdisk⟩
  | fails e disk _ => exact .inl ⟨htells, e, disk, rfl⟩

/-- On a disk in memory, where no call fails, the first attempt succeeds. -/
theorem perform_memory {s : DurableState Contents} (h : s.Rewrites op response log common)
    (hcoherent : s.Coherent) :
    s.perform op =
      .ok response
        { s with log, disk := { s.disk with log := log.entries }, unsyncedFrom := none } := by
  have hwrites := h.writesLog hcoherent
  obtain ⟨after, hworks, -⟩ := writeLogFrom_of_works (s := { s with log }) (Contents.works s.disk)
    (common + 1) s.log.length
  rw [h.perform_eq]
  generalize ({ s with log } : DurableState Contents).writeLogFrom _ s.log.length = written
    at hwrites hworks ⊢
  cases hwrites with
  | done disk hdisk =>
    obtain rfl : disk = { s.disk with log := log.entries } := hdisk
    rfl
  | fails => cases hworks

/-- Attempts that fail leave the change of the log to be made as it was. -/
theorem after_failures {s : DurableState (Watched σ)} (h : s.Rewrites op response log common)
    (hcoherent : s.Coherent) {tries : Nat}
    (hfails : ∀ i < tries, (s.after (.replicate i op)).CallFails op) :
    (s.after (.replicate tries op)).Rewrites op response log common ∧
      s.Retains (s.after (.replicate tries op)) := by
  induction tries with
  | zero => exact ⟨h, Retains.refl s⟩
  | succ tries ih =>
    obtain ⟨hrewrites, hid, hballot, hvoted⟩ := ih fun i hi => hfails i (Nat.lt_succ_of_lt hi)
    obtain ⟨-, e, disk, hperform⟩ := (hrewrites.attempt_cases (hcoherent.after _)).resolve_right
      fun hworks => hworks.1 (hfails tries (Nat.lt_succ_self tries))
    rw [List.replicate_succ', after_append, after_cons, after_nil, hperform]
    exact ⟨hrewrites.again rfl rfl, hid, hballot, hvoted⟩

end Rewrites

/-! ## Repair -/

/-- The same state on a disk in memory that holds the same, where no call ever fails. -/
def undisturbed (s : DurableState σ) : DurableState Contents := { s with disk := contents s.disk }

theorem Coherent.undisturbed {s : DurableState σ} (h : s.Coherent) : s.undisturbed.Coherent :=
  ⟨h.ballot, h.contiguous, h.log, h.synced, h.unsynced, h.votedTerm_le, h.votedTerm_eq⟩

/-- What a log is to become does not depend on the disk. -/
theorem Rewrites.undisturbed {s : DurableState σ} {op : Operation}
    {response : Response} {log : Log} {common : Nat} (h : s.Rewrites op response log common) :
    s.undisturbed.Rewrites op response log common := by
  cases h with
  | append htaken => exact .append htaken
  | appendCommand hterm => exact .appendCommand (s := s.undisturbed) hterm

/-- What comes of an operation that is tried again as often as a call to the disk has failed. -/
structure Repaired (s : DurableState (Watched σ)) (op : Operation) (tries : Nat) : Prop where
  /-- None of the attempts that fail claims to have succeeded. -/
  refused : ∀ i < tries, ∃ e, ((s.after (.replicate i op)).perform op).result = .error (.storage e)
  succeeds : ∃ response, ((s.after (.replicate tries op)).perform op).result = .ok response
  /-- The answer is that of a single attempt on a disk that never fails. -/
  result : ((s.after (.replicate tries op)).perform op).result = (s.undisturbed.perform op).result
  /-- And so is all that is left in memory and on the disk. -/
  state : ((s.after (.replicate tries op)).perform op).state.undisturbed =
    (s.undisturbed.perform op).state
  synced : (contents ((s.after (.replicate tries op)).perform op).state.disk).log =
    ((s.after (.replicate tries op)).perform op).state.log.entries

/-- After any operations on a disk that may fail at any time, a change of the log that is tried
    until no call to the disk fails comes to what a single attempt would have come to. -/
theorem retries_repair {id : ServerId} {disk : Watched σ} {loaded : DurableState (Watched σ)}
    (hload : DurableState.load id disk = .ok loaded) (earlier : List Operation) {op : Operation}
    (hchanges : (loaded.after earlier).ChangesLog op) {tries : Nat}
    (hfails : ∀ i < tries, ((loaded.after earlier).after (.replicate i op)).CallFails op)
    (hworks : ¬ ((loaded.after earlier).after (.replicate tries op)).CallFails op) :
    (loaded.after earlier).Repaired op tries := by
  have hcoherent := (load_eq hload).2.2.2.2.after earlier
  generalize loaded.after earlier = s at hchanges hfails hworks hcoherent ⊢
  obtain ⟨response, log, common, hrewrites⟩ := hchanges.exists_rewrites
  have honce := hrewrites.undisturbed.perform_memory hcoherent.undisturbed
  obtain ⟨hrewrites', hretains⟩ := hrewrites.after_failures hcoherent hfails
  have hcoherent' := hcoherent.after (.replicate tries op)
  obtain ⟨-, disk, hlast, hdisk⟩ :=
    (hrewrites'.attempt_cases hcoherent').resolve_left fun hfails => hworks hfails.1
  constructor
  · intro i hi
    obtain ⟨hrewrites, -⟩ := hrewrites.after_failures hcoherent fun j hj =>
      hfails j (Nat.lt_trans hj hi)
    obtain ⟨-, e, disk, hperform⟩ := (hrewrites.attempt_cases (hcoherent.after _)).resolve_right
      fun hworks => hworks.1 (hfails i hi)
    exact ⟨e, by rw [hperform]; rfl⟩
  · exact ⟨response, by rw [hlast]; rfl⟩
  · rw [hlast, honce]
    rfl
  · rw [hlast, honce]
    have hballot : (contents disk).ballot = (contents s.disk).ballot := by
      rw [hdisk, hcoherent.ballot, ← hretains.ballot]
      exact hcoherent'.ballot
    have hcontents : contents disk = { contents s.disk with log := log.entries } := by
      rw [hdisk] at hballot ⊢
      exact congrArg (Contents.mk · log.entries) hballot
    simp only [undisturbed, Attempt.ok, hcontents, hretains.id, hretains.ballot,
      hretains.votedTerm]
  · rw [hlast]
    show (contents disk).log = log.entries
    rw [hdisk]

/-- Two entries are stored and a third one is not. The second is then to be replaced: the disk
    refuses to remove it, removes it but takes nothing in its place, refuses again, and works. -/
theorem retries_repair_replacement :
    let s := watched [false, false, false, true, false, true, false, true, true]
    let earlier := [.adoptTerm 1, .appendCommand 1 [1], .appendCommand 1 [2], .appendCommand 1 [3],
      .adoptTerm 2]
    let op := .append [⟨2, 2, [4]⟩, ⟨2, 3, [5]⟩] ⟨1, 1⟩
    (s.after earlier).unsyncedFrom = some 3 ∧ (s.after earlier).ChangesLog op ∧
      (∀ i < 3, ((s.after earlier).after (.replicate i op)).CallFails op) ∧
      ¬ ((s.after earlier).after (.replicate 3 op)).CallFails op ∧
      (contents ((s.after earlier).after (.replicate 2 op)).disk).log = [⟨1, 1, [1]⟩] ∧
      (s.after earlier).Repaired op 3 := by
  intro s earlier op
  have hchanges : (s.after earlier).ChangesLog op := by decide
  have hfails : ∀ i < 3, ((s.after earlier).after (.replicate i op)).CallFails op := by decide
  have hworks : ¬ ((s.after earlier).after (.replicate 3 op)).CallFails op := by decide
  have hload : DurableState.load ⟨1⟩ s.disk = .ok s := rfl
  exact ⟨by decide, hchanges, hfails, hworks, by decide,
    retries_repair hload earlier hchanges hfails hworks⟩

end Quorum.DurableState
