import Quorum.Proofs.State.Durable

set_option autoImplicit false

/-! # Runs of the durable state

Whoever holds the durable state can ask it to change in seven ways, and can forget it and load it
again from its disk. Here these are values, so that one can speak of every sequence of them: what
it makes of the state, and what was answered on the way.

What one operation can come to is said once, in `Performs`. It says as well which vote the operation
has given and whether it has written to the log, as this is what a run is to be judged by. -/

namespace Quorum

/-! ## Operations -/

/-- What can be asked of the durable state. -/
inductive Operation where
  | openTerm
  | resetTerm (term : Nat)
  | adoptTerm (term : Nat)
  | giveVote (candidate : ServerId)
  | grantVote (term : Nat) (candidate : ServerId) (last : Position)
  | append (batch : List Entry) (prev : Position)
  | appendCommand (term : Nat) (command : Bytes)
  /-- Forget the state in memory and load it from the disk. -/
  | reload
  deriving DecidableEq, Repr

/-- What an operation that succeeds can answer. -/
inductive Response where
  /-- There is nothing to say but that it is done. -/
  | done
  | opened (term : Nat)
  | adopted (newer : Bool)
  | granted (answer : Bool)
  | appended (outcome : AppendOutcome)
  | put (entry : Option Entry)
  deriving DecidableEq, Repr

/-- A vote that was given. -/
structure Vote where
  term : Nat
  candidate : ServerId
  deriving DecidableEq, Repr

/-- The vote that is on a ballot. -/
def Ballot.given? (ballot : Ballot) : Option Vote := ballot.vote.map (⟨ballot.term, ·⟩)

theorem Ballot.mem_given?_iff (ballot : Ballot) (vote : Vote) :
    vote ∈ ballot.given? ↔ vote.term = ballot.term ∧ ballot.vote = some vote.candidate := by
  obtain ⟨term, candidate⟩ := vote
  simp [Ballot.given?, and_comm, eq_comm]

namespace DurableState

section

variable {σ : Type} [Storage σ]

/-- Perform an operation. A disk that cannot be loaded leaves the state as it was. -/
def perform (s : DurableState σ) : Operation → Attempt EngineError Response (DurableState σ)
  | .openTerm => s.openTerm.map .opened
  | .resetTerm term => (s.resetTerm term).map fun _ => .done
  | .adoptTerm term => (s.adoptTerm term).map .adopted
  | .giveVote candidate => (s.giveVote candidate).map fun _ => .done
  | .grantVote term candidate last => (s.grantVote term candidate last).map .granted
  | .append batch prev => (s.append batch prev).map .appended
  | .appendCommand term command => (s.appendCommand term command).map .put
  | .reload =>
      match DurableState.load s.id s.disk with
      | .ok loaded => .ok .done loaded
      | .error e => .error e s

/-- The state after some operations. -/
def after (s : DurableState σ) (ops : List Operation) : DurableState σ :=
  ops.foldl (fun s op => (s.perform op).state) s

@[simp]
theorem after_nil (s : DurableState σ) : s.after [] = s := rfl

@[simp]
theorem after_cons (s : DurableState σ) (op : Operation) (ops : List Operation) :
    s.after (op :: ops) = (s.perform op).state.after ops := rfl

theorem after_append (s : DurableState σ) (ops ops' : List Operation) :
    s.after (ops ++ ops') = (s.after ops).after ops' := List.foldl_append

/-! ## Whatever the disk does -/

/-- An operation changes the ballot at most, whose term does not go back, or has to do with the log,
    or loads the state. -/
theorem perform_cases (s : DurableState σ) (op : Operation) :
    (∃ ballot disk votedTerm, (s.perform op).state = { s with ballot, disk, votedTerm } ∧
        s.term ≤ ballot.term) ∨
      (∃ batch prev, op = .append batch prev) ∨
      (∃ term command, op = .appendCommand term command) ∨ op = .reload := by
  have hkeeps : ∀ disk : σ, ∃ ballot disk' votedTerm,
      { s with disk } = { s with ballot, disk := disk', votedTerm } ∧ s.term ≤ ballot.term :=
    fun disk => ⟨s.ballot, disk, s.votedTerm, rfl, Nat.le_refl s.term⟩
  cases op with
  | openTerm =>
    refine Or.inl ?_
    show ∃ ballot disk votedTerm, s.openTerm.state = _ ∧ _
    rcases s.openTerm_cases with ⟨-, heq⟩ | ⟨disk, heq⟩ | ⟨e, disk, heq⟩ <;> rw [heq]
    · exact hkeeps s.disk
    · exact ⟨_, disk, s.term + 1, rfl, Nat.le_succ s.term⟩
    · exact hkeeps disk
  | resetTerm term =>
    refine Or.inl ?_
    show ∃ ballot disk votedTerm, (s.resetTerm term).state = _ ∧ _
    unfold DurableState.resetTerm
    split
    · exact hkeeps s.disk
    · next hterm =>
      rcases s.saveBallot_cases ⟨term, none⟩ with ⟨disk, heq⟩ | ⟨e, disk, heq⟩ <;> rw [heq]
      · exact ⟨_, disk, s.votedTerm, rfl, Nat.le_of_not_lt hterm⟩
      · exact hkeeps disk
  | adoptTerm term =>
    refine Or.inl ?_
    show ∃ ballot disk votedTerm, (s.adoptTerm term).state = _ ∧ _
    rcases s.adoptTerm_cases term with ⟨-, heq⟩ | ⟨hlt, ⟨disk, heq⟩ | ⟨e, disk, heq⟩⟩ <;> rw [heq]
    · exact hkeeps s.disk
    · exact ⟨_, disk, s.votedTerm, rfl, Nat.le_of_lt hlt⟩
    · exact hkeeps disk
  | giveVote candidate =>
    refine Or.inl ?_
    show ∃ ballot disk votedTerm, (s.giveVote candidate).state = _ ∧ _
    unfold DurableState.giveVote
    split
    · exact hkeeps s.disk
    · rcases s.saveBallot_cases ⟨s.term, some candidate⟩ with ⟨disk, heq⟩ | ⟨e, disk, heq⟩ <;>
        rw [heq]
      · exact ⟨_, disk, s.term, rfl, Nat.le_refl s.term⟩
      · exact hkeeps disk
  | grantVote term candidate last =>
    refine Or.inl ?_
    show ∃ ballot disk votedTerm, (s.grantVote term candidate last).state = _ ∧ _
    rcases s.grantVote_cases term candidate last with
      ⟨granted, heq⟩ | ⟨-, ⟨disk, heq⟩ | ⟨e, disk, heq⟩⟩ <;> rw [heq]
    · exact hkeeps s.disk
    · exact ⟨_, disk, s.term, rfl, Nat.le_refl s.term⟩
    · exact hkeeps disk
  | append batch prev => exact Or.inr (Or.inl ⟨batch, prev, rfl⟩)
  | appendCommand term command => exact Or.inr (Or.inr (Or.inl ⟨term, command, rfl⟩))
  | reload => exact Or.inr (Or.inr (Or.inr rfl))

omit [Storage σ] in
/-- What only changes memory leaves the disk of the call before it. -/
theorem andThen_disk {α β : Type} (a : Attempt EngineError α (DurableState σ))
    (next : α → DurableState σ → Attempt EngineError β (DurableState σ))
    (hnext : ∀ answer s, (next answer s).state.disk = s.disk) :
    (a.andThen next).state.disk = a.state.disk := by
  obtain ⟨_ | answer, s⟩ := a
  · rfl
  · exact hnext answer s

section

variable {P : σ → Prop} (hP : ∀ disk (change : DiskChange), P disk → P (change.make disk).state)
include hP

theorem saveBallot_disk (s : DurableState σ) (ballot : Ballot) (h : P s.disk) :
    P (s.saveBallot ballot).state.disk := by
  have hsaved := hP s.disk (.saveBallot ballot) h
  unfold DurableState.saveBallot
  simp only
  split <;> exact hsaved

theorem giveVote_disk (s : DurableState σ) (candidate : ServerId) (h : P s.disk) :
    P (s.giveVote candidate).state.disk := by
  unfold DurableState.giveVote
  split
  · exact h
  · rw [andThen_disk _ _ fun _ _ => rfl]
    exact saveBallot_disk hP s _ h

theorem writeLogFrom_disk (s : DurableState σ) (start stored : Nat) (h : P s.disk) :
    P (s.writeLogFrom start stored).state.disk := by
  have hwritten : ∀ (replaces : Bool) (first : Nat) (tail : List Entry),
      P ((if replaces then Storage.truncateFrom s.disk first else .ok () s.disk).andThen
        fun _ disk => Storage.appendEntries disk tail).state := by
    intro replaces first tail
    cases replaces with
    | false => exact hP s.disk (.appendEntries tail) h
    | true =>
      have hcut := hP s.disk (.truncateFrom first) h
      simp only [if_true]
      change P (Storage.truncateFrom s.disk first).state at hcut
      generalize Storage.truncateFrom s.disk first = kept at hcut ⊢
      obtain ⟨_ | _, disk⟩ := kept
      · exact hcut
      · exact hP disk (.appendEntries tail) hcut
  unfold DurableState.writeLogFrom
  simp only
  split <;> exact hwritten ..

/-- What holds of a disk, and goes on to hold whatever change is made, holds of the disk that an
    operation leaves. -/
theorem perform_disk (s : DurableState σ) (op : Operation) (h : P s.disk) :
    P (s.perform op).state.disk := by
  cases op with
  | openTerm =>
    show P s.openTerm.state.disk
    rcases Nat.lt_or_ge (s.term + 1) wordLimit with hlt | hge
    · rw [openTerm_of_lt hlt, andThen_disk _ _ fun _ _ => rfl]
      exact saveBallot_disk hP s _ h
    · rw [openTerm_of_le hge]
      exact h
  | resetTerm term =>
    show P (s.resetTerm term).state.disk
    unfold DurableState.resetTerm
    split
    · exact h
    · exact saveBallot_disk hP s _ h
  | adoptTerm term =>
    show P (s.adoptTerm term).state.disk
    unfold DurableState.adoptTerm
    split
    · exact h
    · rw [andThen_disk _ _ fun _ _ => rfl]
      exact saveBallot_disk hP s _ h
  | giveVote candidate => exact giveVote_disk hP s candidate h
  | grantVote term candidate last =>
    show P (s.grantVote term candidate last).state.disk
    unfold DurableState.grantVote
    split
    · exact h
    · split
      · exact h
      · split
        · exact h
        · split
          · rw [andThen_disk _ _ fun _ _ => rfl]
            exact giveVote_disk hP s candidate h
          · exact h
  | append batch prev =>
    show P (s.append batch prev).state.disk
    unfold DurableState.append
    split
    · next lastNew first log _ =>
      rw [andThen_disk _ _ fun _ _ => rfl]
      exact writeLogFrom_disk hP { s with log } first s.log.length h
    · exact h
  | appendCommand term command =>
    show P (s.appendCommand term command).state.disk
    unfold DurableState.appendCommand
    split
    · exact h
    · rw [andThen_disk _ _ fun _ _ => rfl]
      exact writeLogFrom_disk hP { s with log := s.log.push term command } _ _ h
  | reload =>
    unfold perform
    cases hload : DurableState.load s.id s.disk with
    | error e => exact h
    | ok loaded =>
      show P loaded.disk
      rw [disk_of_load hload]
      exact h

theorem after_disk (s : DurableState σ) (ops : List Operation) (h : P s.disk) :
    P (s.after ops).disk := by
  induction ops generalizing s with
  | nil => exact h
  | cons op ops ih => exact ih _ (perform_disk hP s op h)

end

/-- An operation of the state in memory does not take the term back. -/
theorem term_le_perform (s : DurableState σ) {op : Operation} (hop : op ≠ .reload) :
    s.term ≤ (s.perform op).state.term := by
  rcases s.perform_cases op with ⟨ballot, disk, votedTerm, heq, hle⟩ | ⟨batch, prev, rfl⟩ |
    ⟨term, command, rfl⟩ | rfl
  · rw [heq]
    exact hle
  · exact Nat.le_of_eq (congrArg Ballot.term (s.retains_append batch prev).ballot).symm
  · exact Nat.le_of_eq (congrArg Ballot.term (s.retains_appendCommand term command).ballot).symm
  · exact absurd rfl hop

theorem term_le_after (s : DurableState σ) {ops : List Operation} (hops : .reload ∉ ops) :
    s.term ≤ (s.after ops).term := by
  induction ops generalizing s with
  | nil => exact Nat.le_refl s.term
  | cons op ops ih =>
    rw [List.mem_cons, not_or] at hops
    exact Nat.le_trans (s.term_le_perform (Ne.symm hops.1)) (ih _ hops.2)

/-- A batch is written, or the log is cut back to where the write began. -/
theorem EndsAtDoubt.append {s : DurableState σ} (h : s.EndsAtDoubt) (batch : List Entry)
    (prev : Position) : (s.append batch prev).state.EndsAtDoubt := by
  have hsplices := s.log.append_splices batch prev
  unfold DurableState.append
  generalize s.log.append batch prev = taken at hsplices ⊢
  obtain ⟨outcome, log⟩ := taken
  cases hsplices with
  | refuses => exact h
  | has hprev hbatch hall => exact h
  | changes hprev hbatch hlacks hreach hlog =>
    obtain ⟨hcommon, hlength, -⟩ :=
      (Log.Splices.changes hprev hbatch hlacks hreach hlog).keeps
    have hstart : ∀ doubtful, s.unsyncedFrom = some doubtful →
        prev.index + agreement (s.log.entries.drop prev.index) batch + 1 ≤ doubtful := by
      intro doubtful hdoubtful
      rw [h doubtful hdoubtful]
      exact Nat.succ_le_succ hcommon
    simp only
    rcases writeLogFrom_cases ({ s with log } : DurableState σ) s.log.length hstart with
      ⟨disk, heq⟩ | ⟨e, disk, heq⟩ <;> rw [heq]
    · exact endsAtDoubt_of_none rfl
    · intro start hstart
      refine (Option.some.inj hstart).symm.trans (congrArg (· + 1) ?_)
      exact (List.length_take_of_le hlength).symm

theorem EndsAtDoubt.perform {s : DurableState σ} (h : s.EndsAtDoubt) {op : Operation}
    (hop : op ≠ .reload) : (s.perform op).state.EndsAtDoubt := by
  rcases s.perform_cases op with ⟨ballot, disk, votedTerm, heq, -⟩ | ⟨batch, prev, rfl⟩ |
    ⟨term, command, rfl⟩ | rfl
  · rw [heq]
    exact h
  · exact h.append batch prev
  · exact h.appendCommand term command
  · exact absurd rfl hop

theorem EndsAtDoubt.after {s : DurableState σ} (h : s.EndsAtDoubt) {ops : List Operation}
    (hops : .reload ∉ ops) : (s.after ops).EndsAtDoubt := by
  induction ops generalizing s with
  | nil => exact h
  | cons op ops ih =>
    rw [List.mem_cons, not_or] at hops
    exact ih (h.perform (Ne.symm hops.1)) hops.2

/-! ## What is seen of an operation -/

/-- The vote that an operation gives: the one that was asked for, or that of the server for itself
    in a new term. -/
def vote? (s : DurableState σ) (op : Operation) : Option Vote :=
  match op, (s.perform op).result with
  | .openTerm, .ok (.opened term) => some ⟨term, s.id⟩
  | .giveVote candidate, .ok .done => some ⟨s.term, candidate⟩
  | .grantVote term candidate _, .ok (.granted true) => some ⟨term, candidate⟩
  | _, _ => none

/-- Whether an operation brings memory and disk to hold the same log (`true`) or tries to write the
    log and fails (`false`). It may as well have nothing to do with the log. -/
def writes? (s : DurableState σ) (op : Operation) : Option Bool :=
  match op, (s.perform op).result with
  | .append .., .ok (.appended (.accepted _ (some _))) => some true
  | .append .., .error _ => some false
  | .appendCommand .., .ok (.put (some _)) => some true
  | .appendCommand .., .error _ => some false
  | .reload, .ok .done => some true
  | _, _ => none

/-- What is seen of some operations, one after the other. -/
def trace {α : Type} (observe : DurableState σ → Operation → Option α) (s : DurableState σ) :
    List Operation → List α
  | [] => []
  | op :: ops => (observe s op).toList ++ (s.perform op).state.trace observe ops

theorem trace_concat {α : Type} (observe : DurableState σ → Operation → Option α)
    (s : DurableState σ) (ops : List Operation) (op : Operation) :
    s.trace observe (ops ++ [op]) = s.trace observe ops ++ (observe (s.after ops) op).toList := by
  induction ops generalizing s with
  | nil => simp [trace]
  | cons first ops ih =>
    rw [List.cons_append, trace, trace, ih, after_cons, List.append_assoc]

/-- The votes that some operations give. -/
abbrev votes (s : DurableState σ) (ops : List Operation) : List Vote := s.trace vote? ops

/-- For all of some operations that write the log, or try to, whether they succeed. -/
abbrev writes (s : DurableState σ) (ops : List Operation) : List Bool := s.trace writes? ops

end

/-! ## What an operation can come to -/

variable {σ : Type} [LawfulStorage σ]

/-- What can become of a state that an operation is performed on, with the vote that is given and
    the write that is tried. -/
inductive Performs (s : DurableState σ) (op : Operation) :
    Option Vote → Option Bool → Attempt EngineError Response (DurableState σ) → Prop where
  /-- Nothing changes. A vote that is given had been given before. -/
  | stays (response : Response) (vote : Option Vote) (hvote : ∀ v ∈ vote, v ∈ s.ballot.given?) :
      Performs s op vote none (.ok response s)
  /-- The operation is refused, by the state or by the disk. -/
  | refuses (e : EngineError) (disk : σ) (hdisk : contents disk = contents s.disk) :
      Performs s op none none (.error e { s with disk })
  /-- There is no vote on the ballot any more. -/
  | moves (response : Response) (term : Nat) (disk : σ) (hterm : s.term ≤ term)
      (hnewer : s.term < term ∨ op = .resetTerm term) :
      Performs s op none none (.ok response { s with ballot := ⟨term, none⟩, disk })
  /-- A vote is given in a term in which none was. -/
  | votes (response : Response) (vote : Vote) (disk : σ) (hterm : s.term ≤ vote.term)
      (hvoted : s.votedTerm < vote.term) :
      Performs s op (some vote) none
        (.ok response
          { s with ballot := ⟨vote.term, some vote.candidate⟩, disk, votedTerm := vote.term })
  /-- Another log is written. -/
  | writes (response : Response) (log : Log) (disk : σ) :
      Performs s op none (some true) (.ok response { s with log, disk, unsyncedFrom := none })
  /-- Another log could not be written, and the end of the present one may be given up. -/
  | cuts (e : EngineError) (log : Log) (disk : σ) (unsyncedFrom : Option Nat)
      (hlog : log.entries <+: s.log.entries) :
      Performs s op none (some false) (.error e { s with log, disk, unsyncedFrom })
  /-- The state is what the disk holds. -/
  | loads (loaded : DurableState σ) (hop : op = .reload)
      (hload : DurableState.load s.id s.disk = .ok loaded) :
      Performs s op none (some true) (.ok .done loaded)

/-- An operation comes to one of these, and memory and disk agree afterwards. -/
theorem performs_perform {s : DurableState σ} (h : s.Coherent) (op : Operation) :
    s.Performs op (s.vote? op) (s.writes? op) (s.perform op) ∧ (s.perform op).state.Coherent := by
  unfold vote? writes? perform
  cases op with
  | openTerm =>
    have hopens := s.opens_openTerm
    have hle := h.votedTerm_le
    simp only
    generalize s.openTerm = opened at hopens ⊢
    cases hopens with
    | done disk hdisk =>
      exact ⟨.votes _ ⟨s.term + 1, s.id⟩ disk (Nat.le_succ _) (Nat.lt_succ_of_le hle),
        h.withBallot _ _ hdisk (Nat.le_refl _) fun _ => rfl⟩
    | fails e disk hdisk => exact ⟨.refuses e disk hdisk, h.withDisk hdisk⟩
  | resetTerm term =>
    have hresets := s.resets_resetTerm term
    have hle := h.votedTerm_le
    simp only
    generalize s.resetTerm term = reset at hresets ⊢
    cases hresets with
    | done disk hterm hdisk =>
      exact ⟨.moves _ term disk hterm (.inr rfl),
        h.withBallot _ _ hdisk (Nat.le_trans hle hterm) nofun⟩
    | fails e disk hdisk => exact ⟨.refuses e disk hdisk, h.withDisk hdisk⟩
  | adoptTerm term =>
    have hadopts := s.adopts_adoptTerm term
    have hle := h.votedTerm_le
    simp only
    generalize s.adoptTerm term = adopted at hadopts ⊢
    cases hadopts with
    | stays hterm => exact ⟨.stays _ _ nofun, h⟩
    | done disk hterm hdisk =>
      exact ⟨.moves _ term disk (Nat.le_of_lt hterm) (.inl hterm),
        h.withBallot _ _ hdisk (Nat.le_trans hle (Nat.le_of_lt hterm)) nofun⟩
    | fails e disk hterm hdisk => exact ⟨.refuses e disk hdisk, h.withDisk hdisk⟩
  | giveVote candidate =>
    have hgives := s.gives_giveVote candidate
    simp only
    generalize s.giveVote candidate = given at hgives ⊢
    cases hgives with
    | done disk hvoted hdisk =>
      exact ⟨.votes _ ⟨s.term, candidate⟩ disk (Nat.le_refl _) hvoted,
        h.withBallot _ _ hdisk (Nat.le_refl _) fun _ => rfl⟩
    | fails e disk hdisk => exact ⟨.refuses e disk hdisk, h.withDisk hdisk⟩
  | grantVote term candidate last =>
    have hgrants := s.grants_grantVote term candidate last
    simp only
    generalize s.grantVote term candidate last = granted at hgrants ⊢
    cases hgrants with
    | refuses => exact ⟨.stays _ _ nofun, h⟩
    | repeats hterm hvote =>
      refine ⟨.stays _ _ fun v hv => ?_, h⟩
      cases hv
      exact (Ballot.mem_given?_iff ..).2 ⟨hterm, hvote⟩
    | done disk hterm hvoted _ hdisk =>
      subst hterm
      exact ⟨.votes _ ⟨s.term, candidate⟩ disk (Nat.le_refl _) hvoted,
        h.withBallot _ _ hdisk (Nat.le_refl _) fun _ => rfl⟩
    | fails e disk hdisk => exact ⟨.refuses e disk hdisk, h.withDisk hdisk⟩
  | append batch prev =>
    obtain ⟨happends, hcoherent⟩ := appends_append h batch prev
    simp only
    generalize s.append batch prev = appended at happends hcoherent ⊢
    refine ⟨?_, hcoherent⟩
    cases happends with
    | refuses => exact .stays _ _ nofun
    | has last _ => exact .stays _ _ nofun
    | done last common log disk _ _ => exact .writes _ log disk
    | fails e last common log disk hsplices _ =>
      refine .cuts _ _ disk _ ?_
      rw [Log.entries_truncateAfter, hsplices.keeps.2.2]
      exact List.take_prefix ..
  | appendCommand term command =>
    obtain ⟨hputs, hcoherent⟩ := putsLast_appendCommand h term command
    simp only
    generalize s.appendCommand term command = put at hputs hcoherent ⊢
    refine ⟨?_, hcoherent⟩
    cases hputs with
    | refuses => exact .stays _ _ nofun
    | done disk _ _ => exact .writes _ _ disk
    | fails e disk unsyncedFrom _ => exact .cuts _ s.log disk unsyncedFrom List.prefix_rfl
  | reload =>
    simp only
    cases hload : DurableState.load s.id s.disk with
    | ok loaded => exact ⟨.loads loaded rfl hload, (load_eq hload).2.2.2.2⟩
    | error e => exact ⟨.refuses e s.disk rfl, h⟩

/-- Memory and disk agree after any operations. -/
theorem Coherent.after {s : DurableState σ} (h : s.Coherent) (ops : List Operation) :
    (s.after ops).Coherent := by
  induction ops generalizing s with
  | nil => exact h
  | cons op ops ih => exact ih (performs_perform h op).2

/-! ## An unreliable disk -/

/-- Server 1 with an empty disk, some of whose next writes fail. -/
def unreliable (fails : List Bool) : DurableState (Fated Contents) where
  id := ⟨1⟩
  ballot := .blank
  votedTerm := 0
  log := .empty
  disk := ⟨.blank, fails⟩
  unsyncedFrom := none

theorem load_unreliable (fails : List Bool) :
    DurableState.load ⟨1⟩ (⟨.blank, fails⟩ : Fated Contents) = .ok (unreliable fails) := rfl

end DurableState

end Quorum
