import Mathlib.Data.List.Nodup
import Mathlib.Data.List.Perm.Subperm
import Quorum.Basic

set_option autoImplicit false

/-! # Majorities

More than half of the members of a cluster. Two majorities of one cluster have a member in common,
which is why a vote that is given once in a term decides the term for the whole cluster. -/

namespace Quorum

/-- `group` lists more than half of `ids`, each member once. -/
structure Majority (ids group : List ServerId) : Prop where
  nodup : group.Nodup
  subset : group ⊆ ids
  moreThanHalf : ids.length < 2 * group.length

namespace Majority

variable {ids group other : List ServerId}

/-- Two majorities meet. -/
theorem exists_mem_both (hg : Majority ids group) (ho : Majority ids other) :
    ∃ id, id ∈ group ∧ id ∈ other := by
  by_contra hnone
  have hdisjoint : group.Disjoint other := fun id hid hid' => hnone ⟨id, hid, hid'⟩
  have hnodup : (group ++ other).Nodup := hg.nodup.append ho.nodup hdisjoint
  have hsubset : group ++ other ⊆ ids := List.append_subset.2 ⟨hg.subset, ho.subset⟩
  have hlength := (List.subperm_of_subset hnodup hsubset).length_le
  have hmore := hg.moreThanHalf
  have hmore' := ho.moreThanHalf
  rw [List.length_append] at hlength
  omega

end Majority

/-! ## A member and the others -/

variable {self : ServerId} {ids peers group : List ServerId}

/-- A member and all the others are the cluster. -/
theorem perm_of_mem_peers (hids : ids.Nodup) (hself : self ∈ ids) (hpeers : peers.Nodup)
    (hmem : ∀ id, id ∈ peers ↔ id ∈ ids ∧ id ≠ self) : (self :: peers).Perm ids := by
  have hnodup : (self :: peers).Nodup :=
    List.nodup_cons.2 ⟨fun h => ((hmem self).1 h).2 rfl, hpeers⟩
  refine (List.perm_ext_iff_of_nodup hnodup hids).2 fun id => ?_
  rw [List.mem_cons, hmem]
  by_cases hid : id = self
  · simp [hid, hself]
  · simp [hid]

/-- A member and some of the others, if they are enough. -/
theorem Majority.of_sublist (hself : self ∈ ids) (hpeers : peers.Nodup)
    (hmem : ∀ id, id ∈ peers ↔ id ∈ ids ∧ id ≠ self) (hgroup : group.Sublist peers)
    (hmore : ids.length < 2 * (group.length + 1)) : Majority ids (self :: group) := by
  refine ⟨List.nodup_cons.2 ⟨fun h => ?_, hpeers.sublist hgroup⟩, ?_, hmore⟩
  · exact ((hmem self).1 (hgroup.subset h)).2 rfl
  · exact List.cons_subset.2 ⟨hself, fun id hid => ((hmem id).1 (hgroup.subset hid)).1⟩

end Quorum
