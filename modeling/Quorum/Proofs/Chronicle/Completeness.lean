import Quorum.Proofs.Chronicle.Terms

set_option autoImplicit false

/-! # What is chosen stays

A log that more than half of the members have acknowledged in its own term is in the log of whoever
is elected later. To see this, take any log that a leader has made, chosen or not. Either all that
has happened since goes along with it (`Safe`), or it can never be chosen any more, as more than
half of the members have moved on to a later term without acknowledging it (`Blocked`). A step takes
a log from the first to the second, but never back. -/

namespace Quorum.Chronicle

variable {ids : List ServerId} {facts : List Fact} {view : View}

/-- All that happens in later terms goes along with a log. -/
structure Safe (facts : List Fact) (view : View) (log : List Entry) : Prop where
  /-- Who is elected later has it. -/
  elected : ∀ ⦃term leader held⦄, Fact.election term leader held ∈ facts → lastTerm log < term →
    log <+: held
  /-- Who has acknowledged it still has it. -/
  kept : ∀ ⦃member term held⦄, Fact.ack member term held ∈ facts → lastTerm log ≤ term →
    log <+: held → log <+: (view member).log
  /-- Who has acknowledged it had it when it voted in a later term. -/
  voted : ∀ ⦃voter term candidate held term' held'⦄,
    Fact.vote voter term candidate held ∈ facts → Fact.ack voter term' held' ∈ facts →
    lastTerm log ≤ term' → term' < term → log <+: held' → log <+: held
  /-- What is sent later does not go against it. -/
  sent : ∀ ⦃request held⦄, Fact.sent request held ∈ facts → lastTerm log ≤ request.term →
    Comparable held log
  /-- What is acknowledged later does not go against it. -/
  acked : ∀ ⦃member term held⦄, Fact.ack member term held ∈ facts → lastTerm log ≤ term →
    Comparable held log

/-- More than half of the members are past the term of a log, and have not acknowledged all of it
    there. -/
def Blocked (ids : List ServerId) (facts : List Fact) (view : View) (log : List Entry) : Prop :=
  ∃ group, Majority ids group ∧ ∀ id ∈ group, lastTerm log < (view id).term ∧
    ∀ held, Fact.ack id (lastTerm log) held ∈ facts → held.length < log.length

/-! ## What is blocked stays blocked -/

theorem Blocked.mono {facts' : List Fact} {view' : View} {log : List Entry}
    (h : Blocked ids facts view log)
    (hterm : ∀ id, (view id).term ≤ (view' id).term)
    (hack : ∀ id held, Fact.ack id (lastTerm log) held ∈ facts' →
      Fact.ack id (lastTerm log) held ∈ facts ∨ (view id).term ≤ lastTerm log) :
    Blocked ids facts' view' log := by
  obtain ⟨group, hgroup, hpast⟩ := h
  refine ⟨group, hgroup, fun id hid =>
    ⟨Nat.lt_of_lt_of_le (hpast id hid).1 (hterm id), fun held hheld => ?_⟩⟩
  rcases hack id held hheld with hold | hle
  · exact (hpast id hid).2 held hold
  · exact absurd (hpast id hid).1 (by omega)

/-- A log that is blocked is not chosen. -/
theorem Blocked.not_chosen {log : List Entry} (h : Blocked ids facts view log) :
    ¬ Chosen ids facts log := by
  rintro ⟨-, group', hgroup', hacks⟩
  obtain ⟨group, hgroup, hpast⟩ := h
  obtain ⟨id, hid, hid'⟩ := hgroup.exists_mem_both hgroup'
  obtain ⟨held, hack, hle⟩ := hacks id hid'
  exact absurd ((hpast id hid).2 held hack) (by omega)

/-! ## What is safe stays safe, or is blocked -/

/-- Nobody has voted in a term that it has not reached. -/
theorem Possible.not_voted (h : Possible ids facts view) {voter candidate : ServerId}
    {term : Nat} {log : List Entry} (hlt : (view voter).term < term) :
    Fact.vote voter term candidate log ∉ facts := fun hvote =>
  absurd (h.ballotsAgree.vote_le hvote) (by omega)

/-- A candidate with the votes of members that had a safe log has it as well, since its own log was
    at least as up to date as theirs. -/
theorem Safe.of_votes {log held own : List Entry} {term : Nat} {voter candidate : ServerId}
    (hsafe : Safe facts view log) (h : Possible ids facts view) (hne : log ≠ [])
    (hround : Fact.round term candidate own ∈ facts)
    (hvote : Fact.vote voter term candidate held ∈ facts) (hlog : log <+: held) :
    log <+: own := by
  obtain ⟨own', hround', hrecent⟩ := h.exists_round hvote
  obtain rfl := h.round_unique hround' hround
  have hheld := h.logsValid.vote hvote
  have hown := h.logsValid.round hround
  have hbirth : Fact.birth held ∈ facts := hheld.birth fun hnil => hne (by simpa [hnil] using hlog)
  have hlast : lastTerm log ≤ lastTerm held := h.lastTerm_le hheld hlog
  rcases Nat.lt_or_ge (lastTerm held) (lastTerm own') with hlt | hge
  · -- the last entry of the candidate is of a later term, whose leader had the log already
    have hown : Fact.birth own' ∈ facts := hown.birth fun hnil => by simp [hnil] at hlt
    obtain ⟨leader, elected, he, hbegins, -⟩ := h.birth_elected hown
    exact (hsafe.elected he (by omega)).trans hbegins
  · -- the last entries are of one term, and the candidate's log is at least as long
    have hterm : lastTerm held = lastTerm own' := Nat.le_antisymm hrecent.term_le hge
    have hindex := hrecent.index_le hge
    rw [(h.contiguous hheld).index_endOf, (h.contiguous hown).index_endOf] at hindex
    have hown : Fact.birth own' ∈ facts := hown.birth fun hnil => by
      rw [hnil, List.length_nil, Nat.le_zero, List.length_eq_zero_iff] at hindex
      exact hne (by simpa [hindex] using hlog)
    exact hlog.trans ((h.births_comparable hbirth hown hterm).prefix_of_length_le hindex)

/-- An election that a safe log does not survive blocks it. -/
theorem Safe.blocked_of_election {log own : List Entry} {term : Nat} {candidate : ServerId}
    {group : List ServerId} (hsafe : Safe facts view log) (h : Possible ids facts view)
    (hne : log ≠ []) (hround : Fact.round term candidate own ∈ facts) (hgroup : Majority ids group)
    (hvotes : ∀ voter ∈ group, ∃ held, Fact.vote voter term candidate held ∈ facts)
    (hlt : lastTerm log < term) (hlog : ¬ log <+: own) : Blocked ids facts view log := by
  refine ⟨group, hgroup, fun voter hvoter => ?_⟩
  obtain ⟨held, hvote⟩ := hvotes voter hvoter
  refine ⟨Nat.lt_of_lt_of_le hlt (h.ballotsAgree.vote_le hvote), fun held' hack => ?_⟩
  by_contra hlong
  have hbegins := (hsafe.acked hack (Nat.le_refl _)).symm.prefix_of_length_le (by omega)
  have hvoted := hsafe.voted hvote hack (Nat.le_refl _) hlt hbegins
  exact hlog (hsafe.of_votes h hne hround hvote hvoted)

/-- A log that a leader makes is safe, unless somebody was already elected in a later term. -/
theorem Possible.safe_of_push (h : Possible ids facts view) {id : ServerId} {entry : Entry}
    (hlead : (view id).standing = .leading entry.term)
    (hnone : ∀ term leader held, Fact.election term leader held ∈ facts → term ≤ entry.term) :
    Safe
      (.ack id entry.term ((view id).log ++ [entry]) :: .birth ((view id).log ++ [entry]) :: facts)
      (view.set id { view id with log := (view id).log ++ [entry] })
      ((view id).log ++ [entry]) := by
  obtain ⟨-, hsent, hack⟩ := h.commands hlead
  have hterm := (h.leads hlead).term_eq
  have hgrows : (view id).log <+: (view id).log ++ [entry] := List.prefix_append ..
  -- nobody has acknowledged the new log before it was made
  have hshort : ∀ held, held <+: (view id).log → ¬ (view id).log ++ [entry] <+: held := by
    intro held hheld hbegins
    have hlength := (hbegins.trans hheld).length_le
    rw [List.length_append, List.length_singleton] at hlength
    omega
  have hold : ∀ ⦃member term held⦄, Fact.ack member term held ∈ facts → entry.term ≤ term →
      held <+: (view id).log := by
    intro member term held hheld hge
    obtain ⟨-, leader, elected, he⟩ := h.ack_elected hheld
    obtain rfl : term = entry.term := Nat.le_antisymm (hnone _ _ _ he) hge
    exact hack hheld
  constructor
  · intro term leader held he hlt
    rw [lastTerm_concat] at hlt
    exact absurd (hnone term leader held (by simpa using he)) (by omega)
  · intro member term held hheld hge hbegins
    rw [lastTerm_concat] at hge
    simp only [List.mem_cons, Fact.ack.injEq, reduceCtorEq, false_or] at hheld
    rcases hheld with ⟨rfl, -, -⟩ | hheld
    · simp
    · exact absurd hbegins (hshort _ (hold hheld hge))
  · intro voter term candidate held term' held' hvote hheld hge hlt hbegins
    rw [lastTerm_concat] at hge
    simp only [List.mem_cons, Fact.ack.injEq, reduceCtorEq, false_or] at hheld hvote
    rcases hheld with ⟨rfl, rfl, -⟩ | hheld
    · exact absurd hvote (h.not_voted (by omega))
    · exact absurd hbegins (hshort _ (hold hheld hge))
  · intro request held hs hge
    rw [lastTerm_concat] at hge
    simp only [List.mem_cons, reduceCtorEq, false_or] at hs
    obtain ⟨⟨elected, he⟩, -⟩ := h.sent_elected hs
    exact Or.inl ((hsent hs (Nat.le_antisymm (hnone _ _ _ he) hge)).trans hgrows)
  · intro member term held hheld hge
    rw [lastTerm_concat] at hge
    simp only [List.mem_cons, Fact.ack.injEq, reduceCtorEq, false_or] at hheld
    rcases hheld with ⟨-, -, rfl⟩ | hheld
    · exact Or.inl List.prefix_rfl
    · exact Or.inl ((hold hheld hge).trans hgrows)

/-- A log that a leader makes after somebody was elected in a later term is blocked: the voters of
    that election will not acknowledge it. -/
theorem Possible.blocked_of_push (h : Possible ids facts view) {id : ServerId} {entry : Entry}
    (hlead : (view id).standing = .leading entry.term)
    {term : Nat} {leader : ServerId} {held : List Entry}
    (he : Fact.election term leader held ∈ facts) (hlt : entry.term < term) :
    Blocked ids
      (.ack id entry.term ((view id).log ++ [entry]) :: .birth ((view id).log ++ [entry]) :: facts)
      (view.set id { view id with log := (view id).log ++ [entry] })
      ((view id).log ++ [entry]) := by
  have hterm := (h.leads hlead).term_eq
  obtain ⟨group, hgroup, hvotes⟩ := (h.won he).votes
  refine ⟨group, hgroup, fun voter hvoter => ?_⟩
  obtain ⟨log, hvote⟩ := hvotes voter hvoter
  have hreached := h.ballotsAgree.vote_le hvote
  have hother : voter ≠ id := by
    rintro rfl
    omega
  rw [View.set_of_ne _ _ hother, lastTerm_concat]
  refine ⟨by omega, fun held' hack => ?_⟩
  have hpart := (h.commands hlead).ack (by simpa [hother] using hack)
  have hlength := hpart.length_le
  rw [List.length_append, List.length_singleton]
  omega

/-- A member's log may change as long as what is safe in it stays. -/
theorem Safe.set {log : List Entry} {id : ServerId} (hsafe : Safe facts view log)
    (h : Possible ids facts view) (profile : Profile)
    (hkept : lastTerm log ≤ (view id).term → log <+: (view id).log → log <+: profile.log) :
    Safe facts (view.set id profile) log := by
  refine ⟨hsafe.elected, fun member term held hack hge hbegins => ?_, hsafe.voted, hsafe.sent,
    hsafe.acked⟩
  have hold := hsafe.kept hack hge hbegins
  by_cases hmember : member = id
  · subst hmember
    rw [View.set_self]
    exact hkept (Nat.le_trans hge (h.ack_elected hack).1) hold
  · rwa [View.set_of_ne _ _ hmember]

/-- A member may acknowledge a part of its log in its present term as long as this does not go
    against what is safe. -/
theorem Safe.ack {log held : List Entry} {id : ServerId} {term : Nat}
    (hsafe : Safe facts view log)
    (hvotes : ∀ term' candidate held', Fact.vote id term' candidate held' ∈ facts → term' ≤ term)
    (hheld : held <+: (view id).log) (hcomparable : lastTerm log ≤ term → Comparable held log) :
    Safe (.ack id term held :: facts) view log := by
  constructor
  · intro term' leader held' he
    exact hsafe.elected (by simpa using he)
  · intro member term' held' hack hge hbegins
    simp only [List.mem_cons, Fact.ack.injEq] at hack
    rcases hack with ⟨rfl, -, rfl⟩ | hack
    · exact hbegins.trans hheld
    · exact hsafe.kept hack hge hbegins
  · intro voter term' candidate held' term'' held'' hvote hack hge hlt hbegins
    simp only [List.mem_cons, Fact.ack.injEq, reduceCtorEq, false_or] at hack hvote
    rcases hack with ⟨rfl, rfl, -⟩ | hack
    · exact absurd (hvotes _ _ _ hvote) (by omega)
    · exact hsafe.voted hvote hack hge hlt hbegins
  · intro request held' hsent
    exact hsafe.sent (by simpa using hsent)
  · intro member term' held' hack hge
    simp only [List.mem_cons, Fact.ack.injEq] at hack
    rcases hack with ⟨-, rfl, rfl⟩ | hack
    · exact hcomparable hge
    · exact hsafe.acked hack hge

/-- Whoever was elected in a later term than that of a safe log, or in the same, still has it. -/
theorem Safe.of_elected {log held : List Entry} {id : ServerId} {term : Nat}
    (hsafe : Safe facts view log) (h : Possible ids facts view) (hbirth : Fact.birth log ∈ facts)
    (he : Fact.election term id held ∈ facts) (hge : lastTerm log ≤ term) :
    log <+: (view id).log := by
  rcases Nat.lt_or_ge (lastTerm log) term with hlt | hle
  · exact hsafe.kept (h.won he).ack hge (hsafe.elected he hlt)
  · obtain rfl : lastTerm log = term := Nat.le_antisymm hge hle
    obtain ⟨leader, elected, he', -, hack⟩ := h.birth_elected hbirth
    obtain ⟨rfl, -⟩ := h.election_unique he he'
    exact hsafe.kept hack (Nat.le_refl _) List.prefix_rfl

/-- A member that has a safe log, but lacks some of a later leader's entries, finds it in that
    leader's log as well. -/
theorem Safe.prefix_of_sent {log held own : List Entry} {request : AppendRequest}
    (hsafe : Safe facts view log) (hsent : Fact.sent request held ∈ facts)
    (hle : lastTerm log ≤ request.term) (hown : log <+: own) (hheld : ¬ held <+: own) :
    log <+: held := by
  rcases hsafe.sent hsent hle with hbegins | hbegins
  · exact absurd (hbegins.trans hown) hheld
  · exact hbegins

/-- A log stays safe if the winner of an election has it or is of no later term. -/
theorem Safe.win {log : List Entry} {id : ServerId} {term : Nat} {group : List ServerId}
    (hsafe : Safe facts view log) (h : Possible ids facts view) (hbirth : Fact.birth log ∈ facts)
    (hrun : (view id).standing = .running term) (hgroup : Majority ids group)
    (hvotes : ∀ voter ∈ group, ∃ held, Fact.vote voter term id held ∈ facts)
    (hlog : lastTerm log < term → log <+: (view id).log) :
    Safe (.ack id term (view id).log :: .election term id (view id).log :: facts)
      (view.set id { view id with standing := .leading term }) log := by
  have hterm := (h.runs hrun).term_eq
  have hset := hsafe.set h { view id with standing := .leading term } fun _ hlog => hlog
  have helected : Safe (.election term id (view id).log :: facts)
      (view.set id { view id with standing := .leading term }) log := by
    obtain ⟨_, _, _, _, _⟩ := hset
    constructor <;> grind
  refine helected.ack ?_ (by simp) fun hle => Or.inr (hlog ?_)
  · intro term' candidate held hvote
    rw [← hterm]
    exact h.ballotsAgree.vote_le (by simpa using hvote)
  · -- the log is not of this term, in which nobody was elected before
    obtain ⟨leader, elected, he, -⟩ := h.birth_elected hbirth
    refine Nat.lt_of_le_of_ne hle ?_
    rintro rfl
    exact h.not_elected_before hrun hgroup hvotes leader elected he

/-- A log stays safe if another one is made, as the leader that makes it has it already unless it is
    a leader of an earlier term. -/
theorem Safe.push {log : List Entry} {id : ServerId} {entry : Entry}
    (hsafe : Safe facts view log) (h : Possible ids facts view) (hbirth : Fact.birth log ∈ facts)
    (hlead : (view id).standing = .leading entry.term) :
    Safe
      (.ack id entry.term ((view id).log ++ [entry]) :: .birth ((view id).log ++ [entry]) :: facts)
      (view.set id { view id with log := (view id).log ++ [entry] }) log := by
  have hterm := (h.leads hlead).term_eq
  have hgrows : (view id).log <+: (view id).log ++ [entry] := List.prefix_append ..
  have hset := hsafe.set h { view id with log := (view id).log ++ [entry] }
    fun _ hlog => hlog.trans hgrows
  have hborn : Safe (.birth ((view id).log ++ [entry]) :: facts)
      (view.set id { view id with log := (view id).log ++ [entry] }) log := by
    obtain ⟨_, _, _, _, _⟩ := hset
    constructor <;> grind
  refine hborn.ack ?_ (by simp) fun hle => Or.inr ?_
  · intro term' candidate held hvote
    rw [← hterm]
    exact h.ballotsAgree.vote_le (by simpa using hvote)
  · obtain ⟨elected, he, -⟩ := (h.leads hlead).elected
    exact (hsafe.of_elected h hbirth he hle).trans hgrows

/-- Every log that a leader has made is safe or blocked. -/
theorem Possible.safe_or_blocked (h : Possible ids facts view) {log : List Entry}
    (hbirth : Fact.birth log ∈ facts) : Safe facts view log ∨ Blocked ids facts view log := by
  -- a blocked log stays so by every rule: terms grow, and what is acknowledged is acknowledged in
  -- the term that the member is in; only what becomes of a safe log differs from rule to rule
  induction h with
  | blank => simp at hbirth
  | @adopt facts view id term h hlt ih =>
    refine (ih hbirth).imp (fun hsafe => hsafe.set h _ fun _ hlog => hlog) fun hblocked => ?_
    exact hblocked.mono (by grind) (by grind)
  | @rest facts view id h ih =>
    refine (ih hbirth).imp (fun hsafe => hsafe.set h _ fun _ hlog => hlog) fun hblocked => ?_
    exact hblocked.mono (by grind) (by grind)
  | @crash facts view id log' h hvalid hgrows ih =>
    refine (ih hbirth).imp (fun hsafe => hsafe.set h _ fun _ hlog => hlog.trans hgrows)
      fun hblocked => ?_
    exact hblocked.mono (by grind) (by grind)
  | @stand facts view id term h hterm ih =>
    refine (ih (by simpa using hbirth)).imp (fun hsafe => ?_) fun hblocked => ?_
    · obtain ⟨_, _, _, _, _⟩ := hsafe
      constructor <;> grind
    · exact hblocked.mono (by grind) (by grind)
  | @grant facts view id candidate log' h hvote hround hlast ih =>
    refine (ih (by simpa using hbirth)).imp (fun hsafe => ?_) fun hblocked => ?_
    · obtain ⟨_, _, _, _, _⟩ := hsafe
      constructor <;> grind
    · exact hblocked.mono (by grind) (by grind)
  | @win facts view id term group h hrun hgroup hvotes ih =>
    have hbirth : Fact.birth log ∈ facts := by simpa using hbirth
    obtain ⟨hterm, -, hround⟩ := h.runs hrun
    have hblocks : Blocked ids facts view log →
        Blocked ids (.ack id term (view id).log :: .election term id (view id).log :: facts)
          (view.set id { view id with standing := .leading term }) log := fun hblocked =>
      hblocked.mono (by grind) (by grind)
    rcases ih hbirth with hsafe | hblocked
    · by_cases hlog : lastTerm log < term → log <+: (view id).log
      · exact Or.inl (hsafe.win h hbirth hrun hgroup hvotes hlog)
      · -- the election goes against the log, but then its voters have blocked it
        obtain ⟨hlt, hlog⟩ := Classical.not_imp.1 hlog
        exact Or.inr (hblocks (hsafe.blocked_of_election h (h.birth_contiguous hbirth).1 hround
          hgroup hvotes hlt hlog))
    · exact Or.inr (hblocks hblocked)
  | @push facts view id entry h hlead hindex ih =>
    simp only [List.mem_cons, reduceCtorEq, false_or, Fact.birth.injEq] at hbirth
    rcases hbirth with rfl | hbirth
    · -- the log is the new one
      by_cases hnone : ∀ term leader held, Fact.election term leader held ∈ facts →
          term ≤ entry.term
      · exact Or.inl (h.safe_of_push hlead hnone)
      · simp only [not_forall, Nat.not_le] at hnone
        obtain ⟨term, leader, held, he, hlt⟩ := hnone
        exact Or.inr (h.blocked_of_push hlead he hlt)
    · have hterm := (h.leads hlead).term_eq
      refine (ih hbirth).imp (fun hsafe => hsafe.push h hbirth hlead) fun hblocked => ?_
      exact hblocked.mono (by grind) (by grind)
  | @send facts view id request log' elected h helected hleader hlog hcut ih =>
    have hbirth : Fact.birth log ∈ facts := by simpa using hbirth
    refine (ih hbirth).imp (fun hsafe => ?_) fun hblocked => ?_
    · have hown := hsafe.of_elected h hbirth helected
      have hcomparable : lastTerm log ≤ request.term → Comparable log' log := fun hle =>
        Comparable.of_prefix hlog (hown hle)
      obtain ⟨_, _, _, _, _⟩ := hsafe
      constructor <;> grind
    · exact hblocked.mono (by grind) (by grind)
  | @keep facts view id request log' h hsent hterm hidle hlog ih =>
    refine (ih (by simpa using hbirth)).imp (fun hsafe => ?_) fun hblocked => ?_
    · refine hsafe.ack (fun term candidate held hvote => ?_) hlog (hsafe.sent hsent)
      rw [hterm]
      exact h.ballotsAgree.vote_le hvote
    · exact hblocked.mono (by grind) (by grind)
  | @replace facts view id request log' h hsent hterm hidle hlog ih =>
    refine (ih (by simpa using hbirth)).imp (fun hsafe => ?_) fun hblocked => ?_
    · have hset := hsafe.set h { view id with log := log' } fun hle hown =>
        hsafe.prefix_of_sent hsent (by omega) hown hlog
      refine hset.ack (fun term candidate held hvote => ?_) (by simp) (hsafe.sent hsent)
      rw [hterm]
      exact h.ballotsAgree.vote_le hvote
    · exact hblocked.mono (by grind) (by grind)
  | @cut facts view id request log' common h hsent hterm hidle hlog hcommon hlongest ih =>
    refine (ih hbirth).imp (fun hsafe => ?_) fun hblocked => ?_
    · refine hsafe.set h _ fun hle hown => ?_
      exact hlongest log hown (hsafe.prefix_of_sent hsent (by omega) hown hlog)
    · exact hblocked.mono (by grind) (by grind)
  | @note facts view id log' chosen h hchosen hterm hlog hlog' ih =>
    refine (ih (by simpa using hbirth)).imp (fun hsafe => ?_) fun hblocked => ?_
    · obtain ⟨_, _, _, _, _⟩ := hsafe
      constructor <;> grind
    · exact hblocked.mono (by grind) (by grind)

/-! ## What is chosen -/

theorem Chosen.mono {facts' : List Fact} {log : List Entry} (h : Chosen ids facts log)
    (hsub : facts ⊆ facts') : Chosen ids facts' log := by
  obtain ⟨hbirth, group, hgroup, hacks⟩ := h
  refine ⟨hsub hbirth, group, hgroup, fun id hid => ?_⟩
  obtain ⟨held, hack, hle⟩ := hacks id hid
  exact ⟨held, hsub hack, hle⟩

/-- All that happens in later terms goes along with what is chosen. -/
theorem Chosen.safe {log : List Entry} (hchosen : Chosen ids facts log)
    (h : Possible ids facts view) : Safe facts view log :=
  (h.safe_or_blocked hchosen.1).resolve_right fun hblocked => hblocked.not_chosen hchosen

/-- Of two chosen logs one goes on where the other ends. -/
theorem Chosen.comparable {a b : List Entry} (ha : Chosen ids facts a) (hb : Chosen ids facts b)
    (h : Possible ids facts view) : Comparable a b := by
  have hlater : ∀ {a b : List Entry}, Chosen ids facts a → Chosen ids facts b →
      lastTerm a < lastTerm b → a <+: b := by
    intro a b ha hb hlt
    obtain ⟨leader, elected, he, hbegins, -⟩ := h.birth_elected hb.1
    exact ((ha.safe h).elected he hlt).trans hbegins
  rcases Nat.lt_trichotomy (lastTerm a) (lastTerm b) with hlt | heq | hlt
  · exact Or.inl (hlater ha hb hlt)
  · exact h.births_comparable ha.1 hb.1 heq
  · exact Or.inr (hlater hb ha hlt)

/-- A member that has a part of a chosen log, but lacks some of a later leader's entries, finds that
    part in the leader's log as well. -/
theorem Chosen.prefix_of_sent {log part held own : List Entry} {request : AppendRequest}
    (hchosen : Chosen ids facts log) (h : Possible ids facts view)
    (hsent : Fact.sent request held ∈ facts) (hle : lastTerm log ≤ request.term)
    (hpart : part <+: log) (hown : part <+: own) (hheld : ¬ held <+: own) : part <+: held := by
  rcases (hchosen.safe h).sent hsent hle with hbegins | hbegins
  · rcases Comparable.of_prefix hpart hbegins with hcase | hcase
    · exact hcase
    · exact absurd (hcase.trans hown) hheld
  · exact hpart.trans hbegins

/-- What of its log a member knows to be committed is part of a chosen log, whose last entry is of
    no later term than the member's. -/
def Held (ids : List ServerId) (facts : List Fact) (profile : Profile) (log : List Entry) : Prop :=
  log <+: profile.log ∧
    ∃ chosen, Chosen ids facts chosen ∧ lastTerm chosen ≤ profile.term ∧ log <+: chosen

theorem Held.mono {facts' : List Fact} {profile profile' : Profile} {log : List Entry}
    (h : Held ids facts profile log) (hsub : facts ⊆ facts')
    (hterm : profile.term ≤ profile'.term) (hlog : log <+: profile.log → log <+: profile'.log) :
    Held ids facts' profile' log := by
  obtain ⟨hown, chosen, hchosen, hle, hbegins⟩ := h
  exact ⟨hlog hown, chosen, hchosen.mono hsub, Nat.le_trans hle hterm, hbegins⟩

/-- What a member once knew to be committed stays in its log. -/
theorem Possible.held (h : Possible ids facts view) {id : ServerId} {log : List Entry}
    (hhold : Fact.hold id log ∈ facts) : Held ids facts (view id) log := by
  induction h with
  | blank => simp at hhold
  | @note facts view id' log' chosen h hchosen hterm hlog hlog' ih =>
    simp only [List.mem_cons, Fact.hold.injEq] at hhold
    rcases hhold with ⟨rfl, rfl⟩ | hhold
    · exact ⟨hlog', chosen, hchosen.mono (List.subset_cons_self ..), hterm, hlog⟩
    · exact (ih hhold).mono (List.subset_cons_self ..) (Nat.le_refl _) fun hlog => hlog
  | @replace facts view id' request log' h hsent hterm hidle hlog ih =>
    have hhold : Fact.hold id log ∈ facts := by simpa using hhold
    -- the leader that sends other entries has the chosen log, and so this part of it
    obtain ⟨hown, chosen, hchosen, hle, hpart⟩ := ih hhold
    refine (ih hhold).mono (List.subset_cons_self ..) (by grind) fun _ => ?_
    by_cases hid : id = id'
    · subst hid
      simpa using hchosen.prefix_of_sent h hsent (by omega) hpart hown hlog
    · rwa [View.set_of_ne _ _ hid]
  | @cut facts view id' request log' common h hsent hterm hidle hlog hcommon hlongest ih =>
    obtain ⟨hown, chosen, hchosen, hle, hpart⟩ := ih hhold
    refine (ih hhold).mono (List.Subset.refl _) (by grind) fun _ => ?_
    by_cases hid : id = id'
    · subst hid
      simpa using hlongest log hown (hchosen.prefix_of_sent h hsent (by omega) hpart hown hlog)
    · rwa [View.set_of_ne _ _ hid]
  | @adopt facts view id' term h hlt ih | @rest facts view id' h ih
  | @stand facts view id' term h hterm ih | @grant facts view id' _ _ h _ _ _ ih
  | @win facts view id' _ _ h _ _ _ ih | @push facts view id' entry h _ _ ih
  | @send facts view id' _ _ _ h _ _ _ _ ih | @keep facts view id' _ _ h _ _ _ _ ih
  | @crash facts view id' _ h _ _ ih =>
    refine (ih (by simpa using hhold)).mono (by simp) (by grind) fun hown => ?_
    grind [List.IsPrefix.trans]

/-- Of what two members know to be committed, one goes on where the other ends. -/
theorem Possible.holds_comparable (h : Possible ids facts view) {a b : ServerId}
    {log log' : List Entry} (ha : Fact.hold a log ∈ facts) (hb : Fact.hold b log' ∈ facts) :
    Comparable log log' := by
  obtain ⟨-, chosen, hchosen, -, hpart⟩ := h.held ha
  obtain ⟨-, chosen', hchosen', -, hpart'⟩ := h.held hb
  rcases hchosen.comparable hchosen' h with hbegins | hbegins
  · exact Comparable.of_prefix (hpart.trans hbegins) hpart'
  · exact Comparable.of_prefix hpart (hpart'.trans hbegins)

end Quorum.Chronicle
