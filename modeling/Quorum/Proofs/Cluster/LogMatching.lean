import Quorum.Proofs.Cluster.Tracks

set_option autoImplicit false

/-! # Logs match

Every log of a run, in the memory of a member or on its disk, counts its indices from 1, and its
terms do not go down. Two logs that have an entry of the same index and term in common are equal up
to there. Commands are never compared by the members themselves, but an index and a term belong to
one entry of the whole run, also if a leader had to take an entry back and has used its index again,
or if a disk still holds entries that were cut off in memory. -/

namespace Quorum.Setup

open Chronicle

variable {σ μ : Type} [LawfulStorage σ] [StateMachine μ]

/-- All logs, in memory and on disk, at whatever moments of the run. -/
theorem logs_match (setup : Setup σ μ) (actions : List Action) {i j : Nat} {a b : ServerId}
    {log log' : List Entry} (hlog : log ∈ (setup.moment actions i).logs a)
    (hlog' : log' ∈ (setup.moment actions j).logs b) :
    ContiguousFrom 1 log ∧ log.Pairwise (fun entry next => entry.term ≤ next.term) ∧
      ∀ entry ∈ log, ∀ entry' ∈ log', entry.index = entry'.index → entry.term = entry'.term →
        log.take entry.index = log'.take entry.index := by
  obtain ⟨facts, hgrows, htracks, -⟩ := setup.exists_chronicle False actions nofun
  have hfinal := (htracks (max i j)).possible
  have hvalid := ((htracks i).valid_logs hlog).mono (hgrows i _ (Nat.le_max_left i j))
  have hvalid' := ((htracks j).valid_logs hlog').mono (hgrows j _ (Nat.le_max_right i j))
  refine ⟨hfinal.contiguous hvalid, hfinal.terms_sorted hvalid, ?_⟩
  intro entry hentry entry' hentry' hindex hterm
  obtain ⟨hle, before, hpart⟩ := (hfinal.contiguous hvalid).take_of_mem hentry
  obtain ⟨hle', before', hpart'⟩ := (hfinal.contiguous hvalid').take_of_mem hentry'
  rw [← hindex] at hle' hpart'
  refine hfinal.take_eq_take hvalid hvalid' hle hle' ?_
  rw [hpart, hpart', lastTerm_concat, lastTerm_concat, hterm]

/-- Member 1 has taken a second command, of which member 2 does not know yet. -/
def unevenLogs : Cluster (Fated Contents) Journal :=
  (Setup.small 3 fun _ => []).moment (firstCommand ++ [.occur ⟨1⟩ ⟨0, 1⟩ (.submit [8])]) 15

theorem logs_match_unevenLogs :
    [⟨1, 1, [7]⟩, ⟨1, 2, [8]⟩] ∈ unevenLogs.logs ⟨1⟩ ∧ [⟨1, 1, [7]⟩] ∈ unevenLogs.logs ⟨2⟩ ∧
      List.take 1 [(⟨1, 1, [7]⟩ : Entry), ⟨1, 2, [8]⟩] = List.take 1 [⟨1, 1, [7]⟩] := by
  have hfirst : [⟨1, 1, [7]⟩, ⟨1, 2, [8]⟩] ∈ unevenLogs.logs ⟨1⟩ := by decide
  have hsecond : [⟨1, 1, [7]⟩] ∈ unevenLogs.logs ⟨2⟩ := by decide
  obtain ⟨-, -, hmatch⟩ := logs_match _ _ hfirst hsecond
  exact ⟨hfirst, hsecond, hmatch ⟨1, 1, [7]⟩ (by decide) ⟨1, 1, [7]⟩ (by decide) rfl rfl⟩

end Quorum.Setup
