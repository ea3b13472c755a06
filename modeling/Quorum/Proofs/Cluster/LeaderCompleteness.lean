import Quorum.Proofs.Cluster.Tracks

set_option autoImplicit false

/-! # Leaders have all that is committed

What a leader commits by counting copies is chosen: a majority has acknowledged it in the leader's
own term. Whoever is elected in a later term needs the vote of somebody among these, who gives it
only to a log that has as much. So each later leader has the same entries, from its election on and
for as long as it leads, in memory and on its disk. It may even have been elected before the entries
were committed. -/

namespace Quorum

open Chronicle

/-- Between two moments a member raises its committed index to `index`, as the leader of the term
    and without leaving the term. -/
structure Cluster.Raises {σ μ : Type} (c c' : Cluster σ μ) (id : ServerId) (term index : Nat) :
    Prop where
  leads : c.leads id term
  stays : (c'.server? id).any (·.term = term)
  rises : c.committed id < index
  reaches : c'.committed id = index

namespace Setup

variable {σ μ : Type} [LawfulStorage σ] [StateMachine μ]

/-- What a leader has committed is chosen, in its own term or an earlier one. -/
theorem Acts.chosen_of_raises {setup : Setup σ μ} {prompt : Prop} {facts facts' : List Fact}
    {c c' : Cluster σ μ} {id : ServerId} {term index : Nat} (h : setup.Tracks prompt facts c)
    (hacts : setup.Acts prompt facts' c c') (hraises : c.Raises c' id term index) :
    index ≤ (c'.memory id).length ∧ Chosen setup.ids facts' ((c'.memory id).take index) ∧
      lastTerm ((c'.memory id).take index) ≤ term := by
  obtain ⟨hleads, hstays, hrises, hreaches⟩ := hraises
  unfold Cluster.leads Cluster.committed Cluster.memory at *
  cases hserver : c.server? id with
  | none => simp [hserver] at hleads
  | some s =>
    cases hserver' : c'.server? id with
    | none => simp [hserver'] at hstays
    | some s' =>
      rw [hserver] at hleads hrises
      rw [hserver'] at hstays hreaches
      have hup := Cluster.hosts_of_server? hserver
      have hleads : s.role.leads term := hleads
      have hstays : s'.term = term := of_decide_eq_true hstays
      have hreaches : s'.volatile.committed = index := hreaches
      have hrises : s.volatile.committed < index := hrises
      cases hrole : s.role with
      | follower => simp [hrole, Role.leads] at hleads
      | candidate candidate => simp [hrole, Role.leads] at hleads
      | leader leader =>
        have hterm := (h.up id s hup).term_eq_of_leader hrole
        have hown : leader.term = term := by simpa [hrole, Role.leads] using hleads
        have hvouched := hacts.raised id s s' hup (Cluster.hosts_of_server? hserver')
          (hstays.symm ▸ hleads) (hreaches.symm ▸ hrises)
        rw [hreaches, hterm, hown] at hvouched
        exact hvouched

/-- Who leads a later term has what a leader has committed, whichever of the two comes first. -/
theorem leader_has_committed (setup : Setup σ μ) (actions : List Action) {i j : Nat}
    {a b : ServerId} {term term' index : Nat}
    (hraises : (setup.moment actions i).Raises (setup.moment actions (i + 1)) a term index)
    (hleads : (setup.moment actions j).leads b term') (hlt : term < term') :
    index ≤ ((setup.moment actions (i + 1)).memory a).length ∧
      ((setup.moment actions j).memory b).take index =
        ((setup.moment actions (i + 1)).memory a).take index ∧
      ((setup.moment actions j).stored b).take index =
        ((setup.moment actions (i + 1)).memory a).take index := by
  obtain ⟨facts, hgrows, htracks, hacts⟩ := setup.exists_chronicle False actions nofun
  obtain ⟨hle, hchosen, hlast⟩ := (hacts i).chosen_of_raises (htracks i) hraises
  obtain ⟨elected, he, hbegins⟩ := (htracks j).elected hleads
  -- the later moment knows of both, the commit and the election
  have hsafe := (hchosen.mono (hgrows (i + 1) _ (Nat.le_max_left (i + 1) j))).safe
    (htracks (max (i + 1) j)).possible
  have hhas := (hsafe.elected (hgrows j _ (Nat.le_max_right (i + 1) j) he)
    (Nat.lt_of_le_of_lt hlast hlt)).trans hbegins
  have hlength := List.length_take_of_le hle
  have hmemory := List.prefix_iff_eq_take.1 hhas
  have hstored := List.prefix_iff_eq_take.1 (hhas.trans ((htracks j).memory_prefix_stored b))
  rw [hlength] at hmemory hstored
  exact ⟨hle, hmemory.symm, hstored.symm⟩

/-- After the first command is committed, member 3 gives member 2 its vote in term 2. -/
def secondElection : List Action :=
  let clock : Clock := ⟨0, 1⟩
  firstCommand ++
    [.occur ⟨2⟩ clock .timerFires, .occur ⟨2⟩ clock .takeTimeout, .occur ⟨2⟩ clock (.turn .stop),
      .deliver 5 clock, .conclude 5 clock (.reply 0), .occur ⟨2⟩ clock (.turn .stop)]

theorem leader_has_committed_secondElection :
    ((Setup.small 3 fun _ => []).moment secondElection 13).Raises
        ((Setup.small 3 fun _ => []).moment secondElection 14) ⟨1⟩ 1 1 ∧
      ((Setup.small 3 fun _ => []).moment secondElection 20).leads ⟨2⟩ 2 ∧
      (((Setup.small 3 fun _ => []).moment secondElection 20).memory ⟨2⟩).take 1 =
        (((Setup.small 3 fun _ => []).moment secondElection 14).memory ⟨1⟩).take 1 := by
  have hraises : ((Setup.small 3 fun _ => []).moment secondElection 13).Raises
      ((Setup.small 3 fun _ => []).moment secondElection 14) ⟨1⟩ 1 1 :=
    ⟨by decide, by decide, by decide, by decide⟩
  have hleads : ((Setup.small 3 fun _ => []).moment secondElection 20).leads ⟨2⟩ 2 := by decide
  exact ⟨hraises, hleads, (leader_has_committed _ _ hraises hleads (by decide)).2.1⟩

end Setup

end Quorum
