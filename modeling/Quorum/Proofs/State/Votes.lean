import Mathlib.Data.List.Induction
import Quorum.Proofs.State.Operations

set_option autoImplicit false

/-! # One vote per term

Nobody who holds the durable state can make it give its vote to two candidates in one term: neither
by asking again, nor by resetting the ballot, nor over a restart, and whatever the disk refuses.

There is one exception. The ballot can be reset to the term that it is in, and what guards a vote
that is not on the ballot any more is `votedTerm` alone. The disk does not hold that. It is restored
from the ballot, and so a restart at this point makes the server forget its vote and free to give it
to another candidate. Whether a run ever comes to such a restart is `KeepsVotes`. -/

namespace Quorum

/-- No two candidates have got the vote of one term. -/
def VotesAgree (votes : List Vote) : Prop :=
  ∀ v ∈ votes, ∀ w ∈ votes, v.term = w.term → v.candidate = w.candidate

instance (votes : List Vote) : Decidable (VotesAgree votes) := by
  unfold VotesAgree; infer_instance

namespace DurableState

variable {σ : Type}

/-- A vote was given in the present term, but only memory knows of it. -/
def HidesVote (s : DurableState σ) : Prop := s.vote = none ∧ s.votedTerm = s.term ∧ 0 < s.term

instance (s : DurableState σ) : Decidable s.HidesVote := by
  unfold HidesVote; infer_instance

/-- The state is never loaded again while only memory knows of a vote. -/
def KeepsVotes [Storage σ] (s : DurableState σ) (ops : List Operation) : Prop :=
  ∀ i < ops.length, ops[i]? = some .reload → ¬ (s.after (ops.take i)).HidesVote

instance [Storage σ] (s : DurableState σ) (ops : List Operation) :
    Decidable (s.KeepsVotes ops) := by
  unfold KeepsVotes; infer_instance

theorem KeepsVotes.of_concat [Storage σ] {s : DurableState σ} {ops : List Operation}
    {op : Operation} (h : s.KeepsVotes (ops ++ [op])) :
    s.KeepsVotes ops ∧ (op = .reload → ¬ (s.after ops).HidesVote) := by
  constructor
  · intro i hi hop
    have hhides := h i (by rw [List.length_append]; omega) (by rwa [List.getElem?_append_left hi])
    rwa [List.take_append_of_le_length (Nat.le_of_lt hi)] at hhides
  · rintro rfl
    have hhides := h ops.length (by simp) (by simp)
    rwa [List.take_left] at hhides

/-! ## What is remembered -/

/-- How the state remembers the votes that were given: those of the present term it will not give
    to anybody else. -/
structure Remembers (s : DurableState σ) (given : List Vote) : Prop where
  term_le : ∀ v ∈ given, v.term ≤ s.term
  guarded : ∀ v ∈ given, v.term = s.term → s.votedTerm = s.term
  ballot : ∀ v ∈ given, v.term = s.term → s.vote = none ∨ s.vote = some v.candidate
  agree : VotesAgree given

/-- What is on the ballot may be given once more. -/
theorem Remembers.add {s : DurableState σ} {given : List Vote} (h : s.Remembers given)
    (hvoted : s.votedTerm = s.term) {vote : Vote} (hvote : vote ∈ s.ballot.given?) :
    s.Remembers (given ++ [vote]) := by
  obtain ⟨hterm, hcandidate⟩ := (Ballot.mem_given?_iff ..).1 hvote
  have hsame : ∀ v ∈ given, v.term = vote.term → v.candidate = vote.candidate := by
    intro v hv heq
    rcases h.ballot v hv (heq.trans hterm) with hnone | hsome
    · cases hnone.symm.trans hcandidate
    · exact Option.some.inj (hsome.symm.trans hcandidate)
  constructor
  · intro v hv
    rcases List.mem_append.1 hv with hv | hv
    · exact h.term_le v hv
    · rw [List.mem_singleton.1 hv]
      exact Nat.le_of_eq hterm
  · exact fun _ _ _ => hvoted
  · intro v hv heq
    rcases List.mem_append.1 hv with hv | hv
    · exact h.ballot v hv heq
    · rw [List.mem_singleton.1 hv]
      exact .inr hcandidate
  · intro v hv w hw heq
    rcases List.mem_append.1 hv with hv | hv <;> rcases List.mem_append.1 hw with hw | hw
    · exact h.agree v hv w hw heq
    · rw [List.mem_singleton.1 hw] at heq ⊢
      exact hsame v hv heq
    · rw [List.mem_singleton.1 hv] at heq ⊢
      exact (hsame w hw heq.symm).symm
    · rw [List.mem_singleton.1 hv, List.mem_singleton.1 hw]

/-- Another state with the ballot remembers the votes as well, unless it has lost the guard. -/
theorem Remembers.of_ballot {s s' : DurableState σ} {given : List Vote} (h : s.Remembers given)
    (hballot : s'.ballot = s.ballot)
    (hguards : s.votedTerm = s.term → s'.votedTerm = s'.term) : s'.Remembers given := by
  obtain ⟨hterm_le, hguarded, hnone, hagree⟩ := h
  constructor
  · unfold DurableState.term
    rwa [hballot]
  · intro v hv heq
    unfold DurableState.term at heq
    rw [hballot] at heq
    exact hguards (hguarded v hv heq)
  · unfold DurableState.term DurableState.vote
    rwa [hballot]
  · exact hagree

/-- Votes of older terms are remembered whatever is on the ballot. -/
theorem Remembers.of_older {s s' : DurableState σ} {given : List Vote} (h : s.Remembers given)
    (holder : ∀ v ∈ given, v.term < s'.term) : s'.Remembers given where
  term_le v hv := Nat.le_of_lt (holder v hv)
  guarded v hv heq := absurd heq (Nat.ne_of_lt (holder v hv))
  ballot v hv heq := absurd heq (Nat.ne_of_lt (holder v hv))
  agree := h.agree

variable [LawfulStorage σ]

/-- At first, the state remembers the vote on its ballot. -/
theorem Coherent.remembers {s : DurableState σ} (h : s.Coherent) :
    s.Remembers s.ballot.given?.toList := by
  have hnone : s.Remembers [] := ⟨nofun, nofun, nofun, nofun⟩
  cases hgiven : s.ballot.given? with
  | none => exact hnone
  | some vote =>
    have hvote := ((Ballot.mem_given?_iff ..).1 hgiven).2
    exact hnone.add (h.votedTerm_eq (Option.isSome_of_eq_some hvote)) hgiven

/-- An operation gives no vote that contradicts those that are remembered, and remembers its own. -/
theorem Remembers.perform {s : DurableState σ} {given : List Vote} (h : s.Remembers given)
    (hcoherent : s.Coherent) {op : Operation} (hkeeps : op = .reload → ¬ s.HidesVote) :
    (s.perform op).state.Remembers (given ++ (s.vote? op).toList) := by
  have hperforms := (performs_perform hcoherent op).1
  generalize s.vote? op = vote, s.writes? op = write, s.perform op = performed at hperforms ⊢
  cases hperforms with
  | stays response vote hvote =>
    cases vote with
    | none => exact (List.append_nil given).symm ▸ h
    | some vote =>
      have hvote := hvote vote rfl
      have hcandidate := ((Ballot.mem_given?_iff ..).1 hvote).2
      exact h.add (hcoherent.votedTerm_eq (Option.isSome_of_eq_some hcandidate)) hvote
  | refuses e disk _ => exact (List.append_nil given).symm ▸ h.of_ballot rfl fun hguards => hguards
  | moves response term disk hterm _ =>
    rw [Option.toList_none, List.append_nil]
    constructor
    · exact fun v hv => Nat.le_trans (h.term_le v hv) hterm
    · intro v hv heq
      have heq : v.term = term := heq
      have hsame : s.term = term := Nat.le_antisymm hterm (heq ▸ h.term_le v hv)
      exact (h.guarded v hv (heq.trans hsame.symm)).trans hsame
    · exact fun _ _ _ => .inl rfl
    · exact h.agree
  | votes response vote disk hterm hvoted =>
    refine (h.of_older fun v hv => ?_).add rfl rfl
    refine Nat.lt_of_le_of_ne (Nat.le_trans (h.term_le v hv) hterm) fun heq => ?_
    -- had a vote of this term been given, the guard would have refused this one
    have heq : v.term = vote.term := heq
    have hsame : s.term = vote.term := Nat.le_antisymm hterm (heq ▸ h.term_le v hv)
    have := h.guarded v hv (heq.trans hsame.symm)
    omega
  | writes response log disk => exact (List.append_nil given).symm ▸ h.of_ballot rfl fun hguards => hguards
  | cuts e log disk unsyncedFrom _ => exact (List.append_nil given).symm ▸ h.of_ballot rfl fun hguards => hguards
  | loads loaded hop hload =>
    obtain ⟨-, -, hballot, -, hloaded⟩ := load_eq hload
    rw [hcoherent.ballot] at hballot
    rw [Option.toList_none, List.append_nil]
    show loaded.Remembers given
    refine h.of_ballot hballot fun hguarded => ?_
    -- the guard is restored from the ballot, so there has to be a vote on it
    cases hvote : loaded.vote with
    | some candidate => exact hloaded.votedTerm_eq (Option.isSome_of_eq_some hvote)
    | none =>
      have hle := hloaded.votedTerm_le
      have hterm : loaded.term = s.term := congrArg Ballot.term hballot
      have hhides : ¬ 0 < s.term := fun hpos =>
        hkeeps hop ⟨(congrArg Ballot.vote hballot).symm.trans hvote, hguarded, hpos⟩
      omega

/-- What was given before a run and during it is remembered after it. -/
theorem remembers_after {s : DurableState σ} (hcoherent : s.Coherent) {ops : List Operation}
    (hkeeps : s.KeepsVotes ops) :
    (s.after ops).Remembers (s.ballot.given?.toList ++ s.votes ops) := by
  induction ops using List.reverseRecOn with
  | nil => simpa [trace] using hcoherent.remembers
  | append_singleton ops op ih =>
    obtain ⟨hkeeps, hhides⟩ := hkeeps.of_concat
    rw [votes, trace_concat, ← List.append_assoc, after_append]
    exact (ih hkeeps).perform (hcoherent.after ops) hhides

/-- Of all the votes that a state gives after it was loaded, together with the one on its disk, no
    two in one term are for different candidates. -/
theorem one_vote_per_term {id : ServerId} {disk : σ} {s : DurableState σ}
    (hload : DurableState.load id disk = .ok s) (ops : List Operation) (hkeeps : s.KeepsVotes ops) :
    VotesAgree (s.ballot.given?.toList ++ s.votes ops) :=
  (remembers_after (load_eq hload).2.2.2.2 hkeeps).agree

/-- A run with votes, resets and restarts on a disk that refuses the first write. -/
def restarts : List Operation :=
  [.openTerm, .openTerm, .reload, .giveVote ⟨2⟩, .resetTerm 1, .giveVote ⟨2⟩, .adoptTerm 2, .reload,
    .grantVote 2 ⟨3⟩ .origin, .grantVote 2 ⟨2⟩ .origin, .reload, .giveVote ⟨2⟩]

theorem one_vote_per_term_restarts :
    (unreliable [true]).KeepsVotes restarts ∧
      (unreliable [true]).votes restarts = [⟨1, ⟨1⟩⟩, ⟨2, ⟨3⟩⟩] ∧
      VotesAgree ((unreliable [true]).ballot.given?.toList ++ (unreliable [true]).votes restarts) :=
  ⟨by decide, by decide, one_vote_per_term (load_unreliable [true]) restarts (by decide)⟩

/-- A vote, a reset within its term and a restart: the way to a second vote. -/
def resetAndRestart : List Operation :=
  [.adoptTerm 1, .giveVote ⟨2⟩, .resetTerm 1, .reload, .giveVote ⟨3⟩]

/-- Two candidates get the vote of one term if a restart makes the server forget the first one. -/
theorem not_one_vote_per_term_resetAndRestart :
    ¬ ∀ (s : DurableState Contents) (ops : List Operation),
      DurableState.load ⟨1⟩ Contents.blank = .ok s →
        VotesAgree (s.ballot.given?.toList ++ s.votes ops) := by
  intro h
  have hagree := h _ resetAndRestart rfl
  revert hagree
  decide

/-! ## Runs without resets -/

/-- After a load, no vote is known to memory alone. -/
theorem not_hidesVote_of_load {id : ServerId} {disk : σ} {s : DurableState σ}
    (hload : DurableState.load id disk = .ok s) : ¬ s.HidesVote := by
  rintro ⟨hvote, hvoted, hpos⟩
  have := (load_fresh hload).2 hvote
  omega

/-- Only a reset within its term takes a vote off the ballot and leaves its term the present one. -/
theorem Coherent.not_hidesVote {s : DurableState σ} (h : s.Coherent) (hshows : ¬ s.HidesVote)
    {op : Operation} (hop : op ≠ .resetTerm s.term) : ¬ (s.perform op).state.HidesVote := by
  have hle := h.votedTerm_le
  have hperforms := (performs_perform h op).1
  generalize s.vote? op = vote, s.writes? op = write, s.perform op = performed at hperforms ⊢
  cases hperforms with
  | stays | refuses | writes | cuts => exact hshows
  | votes => exact fun hhides => nomatch hhides.1
  | moves response term disk hterm hnewer =>
    rintro ⟨-, hvoted, -⟩
    have hvoted : s.votedTerm = term := hvoted
    obtain hnewer | rfl := hnewer
    · omega
    · exact hop (congrArg Operation.resetTerm (Nat.le_antisymm (hvoted ▸ hle) hterm))
  | loads loaded _ hload => exact not_hidesVote_of_load hload

/-- Who never resets the ballot need not fear restarts. -/
theorem keepsVotes_of_not_mem {id : ServerId} {disk : σ} {s : DurableState σ}
    (hload : DurableState.load id disk = .ok s) {ops : List Operation}
    (hops : ∀ term, .resetTerm term ∉ ops) : s.KeepsVotes ops := by
  have hcoherent := (load_eq hload).2.2.2.2
  have hafter : ∀ ops : List Operation, (∀ term, .resetTerm term ∉ ops) →
      ¬ (s.after ops).HidesVote := by
    intro ops hops
    induction ops using List.reverseRecOn with
    | nil => exact not_hidesVote_of_load hload
    | append_singleton ops op ih =>
      rw [after_append]
      refine (hcoherent.after ops).not_hidesVote (ih fun term hmem => ?_) fun heq => ?_
      · exact hops term (List.mem_append_left _ hmem)
      · exact hops _ (List.mem_append_right _ (List.mem_singleton.2 heq.symm))
  exact fun i _ _ => hafter (ops.take i) fun term hmem => hops term (List.mem_of_mem_take hmem)

end DurableState

end Quorum
