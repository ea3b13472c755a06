import Quorum.Proofs.Chronicle.Basic

set_option autoImplicit false

/-! # Votes, rounds and elections

A member votes once in a term, since its ballot remembers the vote for as long as the term lasts
and terms only grow. So the votes that win a term all go to one candidate: two majorities meet in a
member that would have voted twice. -/

namespace Quorum.Chronicle

variable {ids : List ServerId} {facts : List Fact} {view : View}

/-! ## Ballots -/

/-- How the ballots of the members agree with the votes and rounds of the chronicle. -/
structure BallotsAgree (facts : List Fact) (view : View) : Prop where
  /-- Votes are given in terms that the voter has reached. -/
  vote_le : ∀ ⦃voter term candidate log⦄, Fact.vote voter term candidate log ∈ facts →
    term ≤ (view voter).term
  /-- The vote of the present term is on the ballot. -/
  vote_eq : ∀ ⦃voter term candidate log⦄, Fact.vote voter term candidate log ∈ facts →
    (view voter).term = term → (view voter).vote = some candidate
  /-- What is on the ballot was once given. -/
  exists_vote : ∀ ⦃voter candidate⦄, (view voter).vote = some candidate →
    ∃ log, Fact.vote voter (view voter).term candidate log ∈ facts
  /-- Rounds are opened for terms that the candidate has reached. -/
  round_le : ∀ ⦃term candidate log⦄, Fact.round term candidate log ∈ facts →
    term ≤ (view candidate).term

theorem Possible.ballotsAgree (h : Possible ids facts view) : BallotsAgree facts view := by
  induction h with
  | blank => constructor <;> grind [Ballot.blank]
  | adopt id term h hlt ih | stand id term h hterm ih | grant id candidate log h hvote _ _ ih
  | rest id h ih | win id term group h _ _ _ ih | push id entry h _ _ ih
  | send _ _ _ _ h _ _ _ _ ih | keep _ _ _ h _ _ _ _ ih | replace _ _ _ h _ _ _ _ ih
  | cut _ _ _ _ h _ _ _ _ _ _ ih | crash _ _ h _ _ ih | note _ _ _ h _ _ _ _ ih =>
    -- a rule adds a few facts and changes one profile, whose term does not go back
    obtain ⟨_, _, _, _⟩ := ih
    constructor <;> grind

/-- A member votes for one candidate in a term. -/
theorem Possible.vote_unique (h : Possible ids facts view) {voter a b : ServerId} {term : Nat}
    {log log' : List Entry} (ha : Fact.vote voter term a log ∈ facts)
    (hb : Fact.vote voter term b log' ∈ facts) : a = b := by
  induction h with
  | blank => simp at ha
  | stand id term' h hterm ih =>
    have hle := h.ballotsAgree.vote_le
    grind
  | grant id candidate log'' h hvote hround hlast ih =>
    have heq := h.ballotsAgree.vote_eq
    grind
  | _ => grind

/-! ## Rounds -/

/-- A candidate opens one round in a term. -/
theorem Possible.round_unique (h : Possible ids facts view) {candidate : ServerId} {term : Nat}
    {log log' : List Entry} (ha : Fact.round term candidate log ∈ facts)
    (hb : Fact.round term candidate log' ∈ facts) : log = log' := by
  induction h with
  | blank => simp at ha
  | stand id term' h hterm ih =>
    have hle := h.ballotsAgree.round_le
    grind
  | _ => grind

/-- Who gets a vote has opened a round in that term, with a log that is at least as up to date as
    the voter's. -/
theorem Possible.exists_round (h : Possible ids facts view) {voter candidate : ServerId}
    {term : Nat} {log : List Entry} (hvote : Fact.vote voter term candidate log ∈ facts) :
    ∃ log', Fact.round term candidate log' ∈ facts ∧ (endOf log').AtLeast (endOf log) := by
  induction h with
  | blank => simp at hvote
  | stand id term' h hterm ih =>
    have hself := Position.atLeast_refl
    grind
  | _ => grind

/-- A candidate is in the term of its round, has its own vote, and still has the log with which it
    opened the round. -/
structure Runs (facts : List Fact) (profile : Profile) (id : ServerId) (term : Nat) : Prop where
  term_eq : profile.term = term
  vote_eq : profile.vote = some id
  round : Fact.round term id profile.log ∈ facts

theorem Possible.runs (h : Possible ids facts view) {id : ServerId} {term : Nat}
    (hrun : (view id).standing = .running term) : Runs facts (view id) id term := by
  induction h with
  | blank => simp at hrun
  | stand id' term' h hterm ih =>
    by_cases hid : id = id'
    · subst hid
      rw [View.set_self] at hrun ⊢
      obtain rfl : term' = term := Standing.running.inj hrun
      exact ⟨rfl, rfl, by simp⟩
    · rw [View.set_of_ne _ _ hid] at hrun ⊢
      obtain ⟨hterm, hvote, hround⟩ := ih hrun
      exact ⟨hterm, hvote, by simp [hround]⟩
  | _ => grind [Runs]

/-! ## Elections -/

/-- What stands behind an election: the round that was won, the votes that won it, and the leader's
    own log as the first one acknowledged in its term. -/
structure Won (ids : List ServerId) (facts : List Fact) (term : Nat) (leader : ServerId)
    (log : List Entry) : Prop where
  round : Fact.round term leader log ∈ facts
  ack : Fact.ack leader term log ∈ facts
  votes : ∃ group, Majority ids group ∧
    ∀ voter ∈ group, ∃ held, Fact.vote voter term leader held ∈ facts

theorem Possible.won (h : Possible ids facts view) {term : Nat} {leader : ServerId}
    {log : List Entry} (he : Fact.election term leader log ∈ facts) :
    Won ids facts term leader log := by
  induction h with
  | blank => simp at he
  | win id term' group h hrun hgroup hvotes ih =>
    have hround := (h.runs hrun).round
    simp only [List.mem_cons, reduceCtorEq, false_or] at he
    rcases he with he | he
    · cases he
      exact ⟨by simp [hround], by simp, group, hgroup, by simpa using hvotes⟩
    · obtain ⟨hround', hack, hgroup'⟩ := ih he
      exact ⟨by simp [hround'], by simp [hack], by simpa using hgroup'⟩
  | _ => grind [Won]

/-- A term has one leader. -/
theorem Possible.election_unique (h : Possible ids facts view) {term : Nat} {a b : ServerId}
    {log log' : List Entry} (ha : Fact.election term a log ∈ facts)
    (hb : Fact.election term b log' ∈ facts) : a = b ∧ log = log' := by
  obtain ⟨group, hgroup, hvotes⟩ := (h.won ha).votes
  obtain ⟨group', hgroup', hvotes'⟩ := (h.won hb).votes
  -- somebody voted for both
  obtain ⟨voter, hvoter, hvoter'⟩ := hgroup.exists_mem_both hgroup'
  obtain ⟨held, hvote⟩ := hvotes voter hvoter
  obtain ⟨held', hvote'⟩ := hvotes' voter hvoter'
  obtain rfl : a = b := h.vote_unique hvote hvote'
  exact ⟨rfl, h.round_unique (h.won ha).round (h.won hb).round⟩

/-- A candidate has not been elected in the term for which it runs. -/
theorem Possible.not_elected (h : Possible ids facts view) {id : ServerId} {term : Nat}
    (hrun : (view id).standing = .running term) (log : List Entry) :
    Fact.election term id log ∉ facts := by
  induction h with
  | blank => simp at hrun
  | stand id' term' h hterm ih =>
    by_cases hid : id = id'
    · subst hid
      rw [View.set_self] at hrun
      obtain rfl : term' = term := Standing.running.inj hrun
      intro he
      have hround := (h.won (by simpa using he)).round
      have hle := h.ballotsAgree.round_le hround
      omega
    · rw [View.set_of_ne _ _ hid] at hrun
      simpa using ih hrun
  | _ => grind

/-- When a candidate wins a term, nobody was elected in it before. -/
theorem Possible.not_elected_before (h : Possible ids facts view) {id : ServerId} {term : Nat}
    {group : List ServerId} (hrun : (view id).standing = .running term)
    (hgroup : Majority ids group)
    (hvotes : ∀ voter ∈ group, ∃ log, Fact.vote voter term id log ∈ facts) (leader : ServerId)
    (log : List Entry) : Fact.election term leader log ∉ facts := by
  intro he
  have hold : Fact.election term leader log ∈
      Fact.ack id term (view id).log :: .election term id (view id).log :: facts := by simp [he]
  have hnew : Fact.election term id (view id).log ∈
      Fact.ack id term (view id).log :: .election term id (view id).log :: facts := by simp
  obtain ⟨rfl, -⟩ := (h.win id term group hrun hgroup hvotes).election_unique hold hnew
  exact h.not_elected hrun log he

/-- A leader is in the term that it leads, has its own vote there, and its log goes on where the one
    with which it was elected ends. -/
structure Leads (facts : List Fact) (profile : Profile) (id : ServerId) (term : Nat) : Prop where
  term_eq : profile.term = term
  vote_eq : profile.vote = some id
  elected : ∃ log, Fact.election term id log ∈ facts ∧ log <+: profile.log

theorem Possible.leads (h : Possible ids facts view) {id : ServerId} {term : Nat}
    (hlead : (view id).standing = .leading term) : Leads facts (view id) id term := by
  induction h with
  | blank => simp at hlead
  | win id' term' group h hrun hgroup hvotes ih =>
    by_cases hid : id = id'
    · subst hid
      rw [View.set_self] at hlead ⊢
      obtain rfl : term' = term := Standing.leading.inj hlead
      obtain ⟨hterm, hvote, -⟩ := h.runs hrun
      exact ⟨hterm, hvote, _, by simp, List.prefix_rfl⟩
    · rw [View.set_of_ne _ _ hid] at hlead ⊢
      obtain ⟨hterm, hvote, log, he, hlog⟩ := ih hlead
      exact ⟨hterm, hvote, log, by simp [he], hlog⟩
  | push id' entry h hlead' hindex ih =>
    by_cases hid : id = id'
    · subst hid
      rw [View.set_self] at hlead ⊢
      obtain ⟨hterm, hvote, log, he, hlog⟩ := ih hlead
      exact ⟨hterm, hvote, log, by simp [he], hlog.trans (List.prefix_append ..)⟩
    · rw [View.set_of_ne _ _ hid] at hlead ⊢
      obtain ⟨hterm, hvote, log, he, hlog⟩ := ih hlead
      exact ⟨hterm, hvote, log, by simp [he], hlog⟩
  | _ => grind [Leads]

/-- Nobody but the leader of a term was ever elected in it. -/
theorem Possible.eq_of_leads (h : Possible ids facts view) {id leader : ServerId} {term : Nat}
    {log : List Entry} (hlead : (view id).standing = .leading term)
    (he : Fact.election term leader log ∈ facts) : leader = id := by
  obtain ⟨log', he', -⟩ := (h.leads hlead).elected
  exact (h.election_unique he he').1

end Quorum.Chronicle
