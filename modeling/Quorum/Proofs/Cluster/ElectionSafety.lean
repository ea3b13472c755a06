import Quorum.Proofs.Cluster.Tracks

set_option autoImplicit false

/-! # One leader in a term

Two members never lead the same term, neither at the same moment of a run nor at different ones. It
makes no difference how the members are started and stopped, what becomes of the messages, in which
order the loops take their branches, and which calls to a disk fail: whoever leads was elected, an
election needs the votes of a majority, and a ballot remembers its vote on the disk. -/

namespace Quorum.Setup

open Chronicle

variable {σ μ : Type} [LawfulStorage σ] [StateMachine μ]

/-- Whoever leads a term, at whatever moment of the run, is the same member. -/
theorem leader_unique (setup : Setup σ μ) (actions : List Action) {i j : Nat} {a b : ServerId}
    {term : Nat} (ha : (setup.moment actions i).leads a term)
    (hb : (setup.moment actions j).leads b term) : a = b := by
  obtain ⟨facts, hgrows, htracks, -⟩ := setup.exists_chronicle False actions nofun
  obtain ⟨log, he, -⟩ := (htracks i).elected ha
  obtain ⟨log', he', -⟩ := (htracks j).elected hb
  -- both elections are in the chronicle of the later moment
  have hfinal := (htracks (max i j)).possible
  exact (hfinal.election_unique (hgrows i _ (Nat.le_max_left i j) he)
    (hgrows j _ (Nat.le_max_right i j) he')).1

theorem leader_unique_firstElection :
    ((Setup.small 3 fun _ => []).moment firstElection 9).leads ⟨1⟩ 1 ∧
      ((Setup.small 3 fun _ => []).moment firstElection 10).leads ⟨1⟩ 1 ∧
      (⟨1⟩ : ServerId) = ⟨1⟩ := by
  have hearly : ((Setup.small 3 fun _ => []).moment firstElection 9).leads ⟨1⟩ 1 := by decide
  have hlate : ((Setup.small 3 fun _ => []).moment firstElection 10).leads ⟨1⟩ 1 := by decide
  exact ⟨hearly, hlate, leader_unique _ _ hearly hlate⟩

end Quorum.Setup
