import Quorum.Proofs.Server.Sound

set_option autoImplicit false

/-! # Changing roles

Becoming a follower is always allowed: it gives up what the server stood for and asks for nothing.
A newer term, too, is adopted as a follower. -/

namespace Quorum.Server

open Chronicle

variable {σ μ : Type} [LawfulStorage σ] {site : Site} {facts : List Fact} {s : Server σ μ}

/-! ## Giving up a role -/

/-- The present loop may be told to end. -/
theorem Sound.stopRole (h : s.Sound site facts) :
    ({ s with role := s.role.stop } : Server σ μ).Sound site facts := by
  refine h.withRole (List.Subset.refl _) h.role.stop ?_
  rw [Role.standing_stop]
  exact h.possible

/-- Loops may be forgotten, and kept with what they know. -/
theorem Sound.withRetired (h : s.Sound site facts) (retired : List Role)
    (hretired : ∀ leader, .leader leader ∈ retired → leader.Sound site facts s.peers) :
    ({ s with retired } : Server σ μ).Sound site facts :=
  ⟨h.fits, h.possible, h.durable, h.role, hretired, h.volatile⟩

omit [LawfulStorage σ] in
/-- What changes when a server becomes a follower. -/
theorem becomeFollower_eq (clock : Clock) (s : Server σ μ) :
    ∃ retired leader timer,
      s.becomeFollower clock =
        { s with role := .follower, retired, volatile := { s.volatile with leader }, timer } ∧
      ∀ role ∈ retired, role ∈ s.retired ∨ role = s.role.stop := by
  obtain ⟨config, peers, durable, volatile, machine, timer, timeouts, role, retired, down⟩ := s
  cases role with
  | follower => exact ⟨retired, volatile.leader, timer, rfl, fun role hrole => Or.inl hrole⟩
  | candidate candidate =>
    refine ⟨if (Role.candidate candidate).isLive then retired ++ [(Role.candidate candidate).stop]
      else retired, volatile.leader, if down then timer else clock.restart timer, ?_, ?_⟩
    · cases hlive : (Role.candidate candidate).isLive <;> simp [becomeFollower, retire, hlive, Role.mode]
    · intro role hrole
      split at hrole
      · simpa using hrole
      · exact Or.inl hrole
  | leader leader =>
    refine ⟨if (Role.leader leader).isLive then retired ++ [(Role.leader leader).stop]
      else retired, none, if down then timer else clock.restart timer, ?_, ?_⟩
    · cases hlive : (Role.leader leader).isLive <;>
        simp [becomeFollower, retire, hlive, Role.mode, VolatileState.clearLeader]
    · intro role hrole
      split at hrole
      · simpa using hrole
      · exact Or.inl hrole

/-- A follower may change its durable state into whatever the chronicle bears out. -/
theorem Sound.asFollower (h : s.Sound site facts) (clock : Clock) {durable : DurableState σ}
    (hdurable : durable.Sound site facts)
    (hpossible : Possible site.ids facts
      (site.others.set site.id ⟨durable.ballot, durable.log.entries, .idle⟩)) :
    (({ s with durable } : Server σ μ).becomeFollower clock).Sound site facts := by
  obtain ⟨retired, leader, timer, heq, hretired⟩ :=
    becomeFollower_eq clock ({ s with durable } : Server σ μ)
  rw [heq]
  refine ⟨h.fits, hpossible, hdurable, trivial, ?_, fun hprompt => ?_⟩
  · intro leader hleader
    rcases hretired _ hleader with hold | hstop
    · exact h.retired leader hold
    · have hsound := h.role.stop
      rw [← hstop] at hsound
      exact hsound
  · obtain ⟨happlied, hle, hhold⟩ :=
      (h.volatile hprompt).mono (List.Subset.refl _) hpossible
    exact ⟨happlied, hle, hhold⟩

theorem Sound.becomeFollower (h : s.Sound site facts) (clock : Clock) :
    (s.becomeFollower clock).Sound site facts :=
  h.asFollower clock h.durable h.possible.set_rest

omit [LawfulStorage σ] in
@[simp]
theorem becomeFollower_durable (clock : Clock) (s : Server σ μ) :
    (s.becomeFollower clock).durable = s.durable := by
  obtain ⟨_, _, _, heq, -⟩ := becomeFollower_eq clock s
  rw [heq]

omit [LawfulStorage σ] in
@[simp]
theorem becomeFollower_role (clock : Clock) (s : Server σ μ) :
    (s.becomeFollower clock).role = .follower := by
  obtain ⟨_, _, _, heq, -⟩ := becomeFollower_eq clock s
  rw [heq]

theorem Sound.recover (h : s.Sound site facts) (clock : Clock) :
    (s.recover clock).Sound site facts := by
  unfold Server.recover
  split
  · exact h
  · exact h.becomeFollower clock

/-! ## Adopting a term -/

theorem Sound.stepDown (h : s.Sound site facts) (clock : Clock) (term : Nat) :
    (s.stepDown clock term).state.Sound site facts := by
  have hadopts := s.durable.adopts_adoptTerm term
  unfold Server.stepDown
  generalize s.durable.adoptTerm term = adopted at hadopts ⊢
  cases hadopts with
  | stays hterm => exact h
  | done disk hterm hdisk =>
    exact h.asFollower clock (h.durable.withTerm hterm hdisk) (h.possible.set_adopt hterm)
  | fails e disk hterm hdisk => exact h.withDisk hdisk

omit [LawfulStorage σ] in
theorem stepDown_durable [Storage σ] (clock : Clock) (term : Nat) (s : Server σ μ) :
    (s.stepDown clock term).state.durable = (s.durable.adoptTerm term).state := by
  unfold Server.stepDown
  generalize s.durable.adoptTerm term = adopted
  obtain ⟨_ | _ | _, durable⟩ := adopted
  · rfl
  · rfl
  · exact becomeFollower_durable clock _

omit [LawfulStorage σ] in
theorem stepDown_result [Storage σ] (clock : Clock) (term : Nat) (s : Server σ μ) :
    (s.stepDown clock term).result = (s.durable.adoptTerm term).result := by
  unfold Server.stepDown
  generalize s.durable.adoptTerm term = adopted
  obtain ⟨_ | _ | _, durable⟩ := adopted <;> rfl

omit [LawfulStorage σ] in
/-- Who has stepped down for a term has reached it. -/
theorem term_le_of_stepDown [Storage σ] (clock : Clock) (term : Nat) (s : Server σ μ) {newer : Bool}
    (h : (s.stepDown clock term).result = .ok newer) : term ≤ (s.stepDown clock term).state.term := by
  rw [stepDown_result] at h
  rw [Server.term, stepDown_durable]
  exact DurableState.term_le_of_adoptTerm h

omit [LawfulStorage σ] in
theorem stepDown_log [Storage σ] (clock : Clock) (term : Nat) (s : Server σ μ) :
    (s.stepDown clock term).state.log = s.log := by
  rw [Server.log, stepDown_durable]
  exact s.durable.adoptTerm_log term

/-! ## Timers -/

theorem Sound.becomeCandidate (h : s.Sound site facts) :
    s.becomeCandidate.Sound site facts := by
  unfold Server.becomeCandidate
  split
  · exact h
  · split
    · next hrole =>
      refine h.withRole (List.Subset.refl _) nofun ?_
      have hpossible := h.possible
      unfold Server.profile at hpossible
      rwa [hrole] at hpossible
    · exact h

theorem Sound.takeTimeout (h : s.Sound site facts) : s.takeTimeout.Sound site facts := by
  unfold Server.takeTimeout
  split
  · exact h
  · split
    · exact h
    · next timeout rest _ =>
      have hrest := h.withTimer s.timer rest
      simp only
      split
      · split
        · exact hrest.becomeCandidate
        · next candidate hrole =>
          have hsound := h.role
          have hpossible := h.possible
          unfold Server.profile at hpossible
          rw [hrole] at hsound hpossible
          exact hrest.withRole (List.Subset.refl _) hsound hpossible
        · exact hrest
      · exact hrest

theorem Sound.fireTimer (h : s.Sound site facts) : s.fireTimer.Sound site facts :=
  h.withTimer ..

theorem Sound.shutDown (h : s.Sound site facts) : s.shutDown.Sound site facts := by
  unfold Server.shutDown
  split
  · exact h
  · have hstop := h.stopRole
    exact ⟨hstop.fits, hstop.possible, hstop.durable, hstop.role, hstop.retired, hstop.volatile⟩

end Quorum.Server
