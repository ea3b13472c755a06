import Mathlib.Logic.Relation
import Quorum.Proofs.Server.Roles
import Quorum.Proofs.Server.Turns
import Quorum.Proofs.State.Answers
import Quorum.Proofs.Timer

set_option autoImplicit false

/-! # Servers in order

The role of a server, its ballot, the leader that it knows and its election timer are changed in
different places. A server is *in order* if they agree: whoever leads a term, or counts votes for it,
has given its own vote in this term; a leader knows itself as the leader and waits for no timeout,
everybody else waits for one; and no loop ends but one that was told to, or that of a candidate for
which no term is left.

`Moves` lists the single things that a server does. Each of them keeps it in order, and so does the
opening of a round and a victory, which are kept apart because they alone raise what a server stands
for. -/

namespace Quorum

variable {σ μ : Type}

/-! ## The invariant -/

/-- Whether the loop that goes with the role was told to end. -/
def Role.isStopped : Role → Bool
  | .follower => false
  | .candidate state => state.stopped
  | .leader state => state.stopped

theorem Role.isStopped_stop {role : Role} (h : role ≠ .follower) : role.stop.isStopped := by
  cases role with
  | follower => exact absurd rfl h
  | candidate => rfl
  | leader => rfl

/-- A candidate fits the rest of its server. -/
structure Candidate.InOrder (s : Server σ μ) (candidate : Candidate) : Prop where
  stopped : candidate.stopped = s.isShutDown
  counting : ∀ term tally, candidate.phase = .counting term tally →
    s.durable.ballot = ⟨term, some s.id⟩ ∧ s.volatile.leader = none
  live : s.isShutDown = false → candidate.phase = .ended → wordLimit ≤ s.term + 1
  waits : s.isShutDown = false → candidate.phase ≠ .starting → candidate.phase ≠ .ended →
    candidate.timedOut ∨ s.timer.Expected s.timeouts

/-- A leader fits the rest of its server. -/
structure Leader.InOrder (s : Server σ μ) (leader : Leader) : Prop where
  stopped : leader.stopped = s.isShutDown
  ballot : s.durable.ballot = ⟨leader.term, some s.id⟩
  known : s.volatile.leader = some s.id
  untimed : ¬ s.timer.Expected s.timeouts
  live : s.isShutDown = false → leader.phase ≠ .ended

/-- A role fits the rest of its server. -/
def Role.InOrder (s : Server σ μ) : Role → Prop
  | .follower => s.isShutDown = false → s.timer.Expected s.timeouts
  | .candidate state => state.InOrder s
  | .leader state => state.InOrder s

/-- A role that fits one server fits any other that has the same ballot, knows the same leader and
    may expect the same of its timer. -/
theorem Role.InOrder.transfer {s s' : Server σ μ} {role : Role} (h : role.InOrder s)
    (hid : s'.id = s.id) (hdown : s'.isShutDown = s.isShutDown)
    (hballot : s'.durable.ballot = s.durable.ballot)
    (hleader : s'.volatile.leader = s.volatile.leader)
    (hexpected : s'.timer.Expected s'.timeouts ↔ s.timer.Expected s.timeouts) :
    role.InOrder s' := by
  cases role with
  | follower => exact fun hup => hexpected.2 (h (hdown.symm.trans hup))
  | candidate candidate =>
    obtain ⟨hstopped, hcounting, hlive, hwaits⟩ := h
    rw [← hdown] at hstopped hlive hwaits
    rw [Server.term, DurableState.term, ← hballot] at hlive
    rw [← hid, ← hballot, ← hleader] at hcounting
    exact ⟨hstopped, hcounting, hlive, fun hup hstarted hrunning =>
      (hwaits hup hstarted hrunning).imp_right hexpected.2⟩
  | leader leader =>
    obtain ⟨hstopped, howns, hknown, huntimed, hlive⟩ := h
    rw [← hdown] at hstopped hlive
    refine ⟨hstopped, hballot.trans (hid ▸ howns), hleader.trans (hid ▸ hknown), ?_, hlive⟩
    exact fun hexpects => huntimed (hexpected.1 hexpects)

namespace Server

/-- Role, ballot, known leader and timer agree. -/
structure InOrder (s : Server σ μ) : Prop where
  id : s.durable.id = s.id
  guarded : s.durable.Guarded
  left : s.timer.Left s.timeouts
  role : s.role.InOrder s
  retired : ∀ role ∈ s.retired, role.isStopped

theorem InOrder.candidate {s : Server σ μ} (h : s.InOrder) {candidate : Candidate}
    (hrole : s.role = .candidate candidate) : candidate.InOrder s := by
  have := h.role
  rwa [hrole] at this

theorem InOrder.leader {s : Server σ μ} (h : s.InOrder) {leader : Leader}
    (hrole : s.role = .leader leader) : leader.InOrder s := by
  have := h.role
  rwa [hrole] at this

theorem InOrder.follower {s : Server σ μ} (h : s.InOrder) (hrole : s.role = .follower) :
    s.isShutDown = false → s.timer.Expected s.timeouts := by
  have := h.role
  rwa [hrole] at this

/-! ## What a server does -/

/-- The single things that a server does, apart from opening a round and winning it. -/
inductive Moves (s : Server σ μ) : Server σ μ → Prop where
  /-- Entries are committed and applied. -/
  | advances {s' : Server σ μ} (h : s.Advances s') : Moves s s'
  /-- The disk is written without a new ballot. While votes are counted the log stays. -/
  | writes (durable : DurableState σ) (hretains : s.durable.Retains durable)
      (hlog : ∀ term, s.role.standing = .running term → durable.log = s.log) :
      Moves s { s with durable }
  /-- The vote of the present term is given. -/
  | votes (candidate : ServerId) (disk : σ) (hvoted : s.durable.votedTerm < s.term) :
      Moves s
        { s with
          durable :=
            { s.durable with ballot := ⟨s.term, some candidate⟩, disk, votedTerm := s.term } }
  /-- The role is given up, whatever its loop has come to, maybe for a newer term. -/
  | follows (clock : Clock) (durable : DurableState σ) (role : Role)
      (hid : durable.id = s.durable.id) (hguarded : durable.Guarded)
      (hmode : role.mode = s.role.mode) :
      Moves s (({ s with durable, role } : Server σ μ).becomeFollower clock)
  /-- A follower waits anew, and may have learned who leads. -/
  | hears (clock : Clock) (leader : Option ServerId) (hrole : s.role = .follower) :
      Moves s
        { s with timer := clock.restart s.timer, volatile := { s.volatile with leader } }
  /-- Votes are counted, or the round brings no decision. -/
  | counts (candidate : Candidate) (term : Nat) (tally : Tally) (phase : Candidate.Phase)
      (hrole : s.role = .candidate candidate) (hphase : candidate.phase = .counting term tally)
      (hnext : phase = .waiting ∨ ∃ tally', phase = .counting term tally') :
      Moves s (s.enterPhase candidate phase)
  /-- The loop of a candidate ends because it was told to, or because there is no next term. -/
  | ends (candidate : Candidate) (hrole : s.role = .candidate candidate)
      (hends : candidate.stopped ∨ wordLimit ≤ s.term + 1) : Moves s (s.enterPhase candidate .ended)
  /-- The loop of a leader goes on, or ends because it was told to. -/
  | leads (leader leader' : Leader) (hrole : s.role = .leader leader)
      (hterm : leader'.term = leader.term) (hstopped : leader'.stopped = leader.stopped)
      (hphase : leader'.phase = .ended → leader.phase = .ended ∨ leader.stopped) :
      Moves s { s with role := .leader leader' }
  /-- Something becomes of the roles that were given up. -/
  | retires (retired : List Role)
      (hretired : (∀ role ∈ s.retired, role.isStopped) → ∀ role ∈ retired, role.isStopped) :
      Moves s { s with retired }
  | fires : Moves s s.fireTimer
  | looks : Moves s s.takeTimeout
  | shutsDown : Moves s s.shutDown

/-- One thing after the other. -/
abbrev Becomes : Server σ μ → Server σ μ → Prop := Relation.ReflTransGen Moves

theorem Moves.becomes {s s' : Server σ μ} (h : s.Moves s') : s.Becomes s' :=
  Relation.ReflTransGen.single h

/-- The server after a round was opened. -/
def opened (clock : Clock) (candidate : Candidate) (disk : σ) (s : Server σ μ) : Server σ μ :=
  { s with
    durable := s.durable.opened disk
    timer := clock.restart s.timer
    volatile := s.volatile.clearLeader
    role :=
      .candidate
        { candidate with
          phase := .counting (s.term + 1) (.start s.peers.length)
          timedOut := false } }

/-- The server after it has won the election in a term. -/
def elected (term : Nat) (s : Server σ μ) : Server σ μ :=
  { s with
    timer := s.timer.cancel
    volatile := s.volatile.setLeader s.id
    role := .leader (.fresh term s.isShutDown) }

/-! ## It stays in order -/

/-- A role that is given up is told to end, a leader that stops leading is not known any more, and
    the timer starts anew unless the server is shut down. -/
theorem becomeFollower_of_ne (clock : Clock) {s : Server σ μ} (h : s.role ≠ .follower) :
    ∃ retired leader,
      s.becomeFollower clock =
        { s with
          role := .follower
          retired
          volatile := { s.volatile with leader }
          timer := if s.isShutDown then s.timer else clock.restart s.timer } ∧
      ∀ role ∈ retired, role ∈ s.retired ∨ role = s.role.stop := by
  have hretire : ∀ {role : Role}, ∃ retired, s.retire role = { s with retired } ∧
      ∀ r ∈ retired, r ∈ s.retired ∨ r = role.stop := by
    intro role
    unfold Server.retire
    split
    · refine ⟨_, rfl, fun r hr => ?_⟩
      simpa using hr
    · exact ⟨s.retired, rfl, fun r hr => Or.inl hr⟩
  obtain ⟨retired, heq, hretired⟩ := @hretire s.role
  refine ⟨retired, if s.role.mode = .leader then none else s.volatile.leader, ?_, hretired⟩
  unfold Server.becomeFollower
  cases hrole : s.role with
  | follower => exact absurd hrole h
  | candidate candidate =>
    rw [hrole] at heq
    simp only [heq]
    rfl
  | leader leader =>
    rw [hrole] at heq
    simp only [heq]
    rfl

variable {s s' : Server σ μ}

/-- Whoever gives up its role is in order as a follower. -/
theorem InOrder.follows (h : s.InOrder) (clock : Clock) {durable : DurableState σ} {role : Role}
    (hid : durable.id = s.durable.id) (hguarded : durable.Guarded)
    (hmode : role.mode = s.role.mode) :
    (({ s with durable, role } : Server σ μ).becomeFollower clock).InOrder := by
  by_cases hfollower : role = .follower
  · -- it was a follower before, and goes on waiting
    subst hfollower
    have hrole : s.role = .follower := by
      cases hrole : s.role with
      | follower => rfl
      | candidate => rw [hrole] at hmode; cases hmode
      | leader => rw [hrole] at hmode; cases hmode
    exact ⟨hid.trans h.id, hguarded, h.left, h.follower hrole, h.retired⟩
  · obtain ⟨retired, leader, heq, hretired⟩ :=
      becomeFollower_of_ne clock (s := ({ s with durable, role } : Server σ μ)) hfollower
    rw [heq]
    refine ⟨hid.trans h.id, hguarded, ?_, fun hup => ?_, fun other hmem => ?_⟩
    · show ElectionTimer.Left (if s.isShutDown then s.timer else clock.restart s.timer) s.timeouts
      split
      · exact h.left
      · exact h.left.restart _ _
    · have hup : s.isShutDown = false := hup
      simp only [hup, Bool.false_eq_true, if_false]
      exact ElectionTimer.expected_restart _ _ _ _
    · rcases hretired other hmem with hold | rfl
      · exact h.retired other hold
      · exact Role.isStopped_stop hfollower

/-- Without a new ballot every role stays in order. -/
theorem InOrder.writes (h : s.InOrder) {durable : DurableState σ}
    (hretains : s.durable.Retains durable) : ({ s with durable } : Server σ μ).InOrder := by
  refine ⟨hretains.id.trans h.id, h.guarded.retained hretains, h.left, ?_, h.retired⟩
  exact h.role.transfer rfl rfl hretains.ballot rfl Iff.rfl

/-- Whoever leads or counts has given its vote, so it can give it to nobody else. -/
theorem InOrder.votes (h : s.InOrder) (candidate : ServerId) (disk : σ)
    (hvoted : s.durable.votedTerm < s.term) :
    ({ s with
      durable :=
        { s.durable with ballot := ⟨s.term, some candidate⟩, disk, votedTerm := s.term } } :
      Server σ μ).InOrder := by
  have hnone : ∀ term, s.durable.ballot ≠ ⟨term, some s.id⟩ := by
    intro term hballot
    have hequal := h.guarded (by rw [DurableState.vote, hballot]; rfl)
    exact absurd hequal (Nat.ne_of_lt hvoted)
  refine ⟨h.id, fun _ => rfl, h.left, ?_, h.retired⟩
  cases hrole : s.role with
  | follower => exact h.follower hrole
  | candidate candidate =>
    obtain ⟨hstopped, hcounting, hlive, hwaits⟩ := h.candidate hrole
    exact ⟨hstopped, fun term tally hphase => absurd (hcounting term tally hphase).1 (hnone term),
      hlive, hwaits⟩
  | leader leader => exact absurd (h.leader hrole).ballot (hnone leader.term)

theorem InOrder.fireTimer (h : s.InOrder) : s.fireTimer.InOrder := by
  have hexpected := s.timer.expected_fire_iff s.timeouts
  exact ⟨h.id, h.guarded, h.left.fire, h.role.transfer rfl rfl rfl rfl hexpected, h.retired⟩

/-- The timeout of a follower makes it a candidate, that of a candidate is kept in mind, and a
    leader has none. -/
theorem InOrder.takeTimeout (h : s.InOrder) : s.takeTimeout.InOrder := by
  unfold Server.takeTimeout
  split
  · exact h
  · next hdown =>
    have hup : s.isShutDown = false := by simpa using hdown
    split
    · exact h
    · next timeout rest htimeouts =>
      have hleft : s.timer.Left rest := (htimeouts ▸ h.left).tail
      simp only
      split
      · next hcurrent =>
        split
        · next hrole =>
          -- a follower
          unfold Server.becomeCandidate
          simp only [hup, Bool.false_eq_true, if_false, hrole]
          exact ⟨h.id, h.guarded, hleft,
            ⟨rfl, nofun, fun _ => nofun, fun _ hstarted _ => absurd rfl hstarted⟩, h.retired⟩
        · next candidate hrole =>
          obtain ⟨hstopped, hcounting, hlive, -⟩ := h.candidate hrole
          exact ⟨h.id, h.guarded, hleft, ⟨hstopped, hcounting, hlive, fun _ _ _ => Or.inl rfl⟩,
            h.retired⟩
        · next leader hrole =>
          have huntimed := (h.leader hrole).untimed
          rw [htimeouts] at huntimed
          exact absurd (ElectionTimer.expected_of_isCurrent hcurrent) huntimed
      · next hstale =>
        refine ⟨h.id, h.guarded, hleft, h.role.transfer rfl rfl rfl rfl ?_, h.retired⟩
        rw [htimeouts]
        exact (ElectionTimer.expected_cons_iff rest hstale).symm

theorem InOrder.shutDown (h : s.InOrder) : s.shutDown.InOrder := by
  unfold Server.shutDown
  split
  · exact h
  · refine ⟨h.id, h.guarded, h.left.cancel, ?_, h.retired⟩
    cases hrole : s.role with
    | follower => nofun
    | candidate candidate => exact ⟨rfl, (h.candidate hrole).counting, nofun, nofun⟩
    | leader leader =>
      obtain ⟨-, hballot, hknown, -, -⟩ := h.leader hrole
      exact ⟨rfl, hballot, hknown, h.left.not_expected_cancel, nofun⟩

/-- Whatever a server does, it stays in order. -/
theorem InOrder.moves (h : s.InOrder) (hmoves : s.Moves s') : s'.InOrder := by
  cases hmoves with
  | advances hadvances =>
    obtain ⟨committed, applied, machine, rfl⟩ := hadvances
    exact ⟨h.id, h.guarded, h.left, h.role.transfer rfl rfl rfl rfl Iff.rfl, h.retired⟩
  | writes durable hretains hlog => exact h.writes hretains
  | votes candidate disk hvoted => exact h.votes candidate disk hvoted
  | follows clock durable role hid hguarded hmode => exact h.follows clock hid hguarded hmode
  | hears clock leader hrole =>
    refine ⟨h.id, h.guarded, h.left.restart _ _, ?_, h.retired⟩
    show Role.InOrder _ s.role
    rw [hrole]
    exact fun _ => ElectionTimer.expected_restart _ _ _ _
  | counts candidate term tally phase hrole hphase hnext =>
    obtain ⟨hstopped, hcounting, hlive, hwaits⟩ := h.candidate hrole
    have hstarted : candidate.phase ≠ .starting := by rw [hphase]; nofun
    have hrunning : candidate.phase ≠ .ended := by rw [hphase]; nofun
    have hcounting := hcounting term tally hphase
    have hwaits := fun hup => hwaits hup hstarted hrunning
    refine ⟨h.id, h.guarded, h.left, ?_, h.retired⟩
    rcases hnext with rfl | ⟨tally', rfl⟩
    · exact ⟨hstopped, nofun, fun _ => nofun, fun hup _ _ => hwaits hup⟩
    · refine ⟨hstopped, ?_, fun _ => nofun, fun hup _ _ => hwaits hup⟩
      rintro _ _ ⟨⟩
      exact hcounting
  | ends candidate hrole hends =>
    have hdown := (h.candidate hrole).stopped
    refine ⟨h.id, h.guarded, h.left,
      ⟨hdown, nofun, fun hup _ => ?_, fun _ _ hrunning => absurd rfl hrunning⟩, h.retired⟩
    rcases hends with hstopped | hlast
    · exact absurd (hstopped.symm.trans (hdown.trans hup)) nofun
    · exact hlast
  | leads leader leader' hrole hterm hstopped hphase =>
    obtain ⟨hsame, hballot, hknown, huntimed, hlive⟩ := h.leader hrole
    refine ⟨h.id, h.guarded, h.left,
      ⟨hstopped.trans hsame, hterm ▸ hballot, hknown, huntimed, fun hup hended => ?_⟩, h.retired⟩
    rcases hphase hended with hended | hstopped
    · exact hlive hup hended
    · exact absurd (hstopped.symm.trans (hsame.trans hup)) nofun
  | retires retired hretired =>
    exact ⟨h.id, h.guarded, h.left, h.role.transfer rfl rfl rfl rfl Iff.rfl, hretired h.retired⟩
  | fires => exact h.fireTimer
  | looks => exact h.takeTimeout
  | shutsDown => exact h.shutDown

theorem InOrder.becomes (h : s.InOrder) (hbecomes : s.Becomes s') : s'.InOrder := by
  induction hbecomes with
  | refl => exact h
  | tail _ hmoves ih => exact ih.moves hmoves

/-- A round is opened with the own vote on the ballot, no leader and a running timer. -/
theorem InOrder.opened (h : s.InOrder) (clock : Clock) {candidate : Candidate}
    (hrole : s.role = .candidate candidate) (disk : σ) :
    (s.opened clock candidate disk).InOrder := by
  refine ⟨h.id, fun _ => rfl, h.left.restart _ _, ?_, h.retired⟩
  refine ⟨(h.candidate hrole).stopped, ?_, fun _ => nofun,
    fun _ _ _ => Or.inr (ElectionTimer.expected_restart _ _ _ _)⟩
  rintro _ _ ⟨⟩
  exact ⟨congrArg (fun id => (⟨s.term + 1, some id⟩ : Ballot)) h.id, rfl⟩

/-- Who wins has its own vote in this term, and waits for no timeout any more. -/
theorem InOrder.elected (h : s.InOrder) {candidate : Candidate} {term : Nat} {tally : Tally}
    (hrole : s.role = .candidate candidate) (hphase : candidate.phase = .counting term tally) :
    (s.elected term).InOrder := by
  have hcounting := (h.candidate hrole).counting term tally hphase
  exact ⟨h.id, h.guarded, h.left.cancel,
    ⟨rfl, hcounting.1, rfl, h.left.not_expected_cancel, fun _ => nofun⟩, h.retired⟩

end Server

end Quorum
