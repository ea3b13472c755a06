import Quorum.Configuration

set_option autoImplicit false

/-! # Members and peers of a valid configuration

A configuration that passes its checks names every member once, the server itself among them. The
peers that a server is connected to are then all the others, each once. -/

namespace Quorum

/-! ## Ascending lists -/

namespace ServerId

theorem mem_insert (id other : ServerId) (ids : List ServerId) :
    other ∈ id.insert ids ↔ other = id ∨ other ∈ ids := by
  induction ids with
  | nil => simp [ServerId.insert]
  | cons first rest ih =>
    rw [ServerId.insert]
    split
    · rw [List.mem_cons]
    · split
      · next hsame =>
        rw [hsame, List.mem_cons]
        exact ⟨Or.inr, fun h => h.elim Or.inl fun h => h⟩
      · rw [List.mem_cons, ih, List.mem_cons]
        exact or_left_comm

theorem pairwise_insert (id : ServerId) {ids : List ServerId}
    (h : ids.Pairwise (·.number < ·.number)) : (id.insert ids).Pairwise (·.number < ·.number) := by
  induction ids with
  | nil => exact List.pairwise_singleton ..
  | cons first rest ih =>
    obtain ⟨hfirst, hrest⟩ := List.pairwise_cons.1 h
    rw [ServerId.insert]
    split
    · next hlt =>
      refine List.pairwise_cons.2 ⟨fun other hother => ?_, h⟩
      rcases List.mem_cons.1 hother with rfl | hother
      · exact hlt
      · exact Nat.lt_trans hlt (hfirst other hother)
    · next hge =>
      split
      · exact h
      · next hne =>
        refine List.pairwise_cons.2 ⟨fun other hother => ?_, ih hrest⟩
        rcases (mem_insert id other rest).1 hother with rfl | hother
        · have hnumber : other.number ≠ first.number := fun heq =>
            hne (by cases other; cases first; exact congrArg ServerId.mk heq)
          omega
        · exact hfirst other hother

@[simp]
theorem mem_ascending (id : ServerId) (ids : List ServerId) : id ∈ ascending ids ↔ id ∈ ids := by
  induction ids with
  | nil => exact Iff.rfl
  | cons first rest ih =>
    show id ∈ first.insert (ascending rest) ↔ _
    rw [mem_insert, ih, List.mem_cons]

theorem nodup_ascending (ids : List ServerId) : (ascending ids).Nodup := by
  have hsorted : (ascending ids).Pairwise (·.number < ·.number) := by
    induction ids with
    | nil => exact List.Pairwise.nil
    | cons first rest ih => exact pairwise_insert first ih
  refine hsorted.imp ?_
  rintro id _ hlt rfl
  exact Nat.lt_irrefl _ hlt

end ServerId

/-! ## Valid configurations -/

/-- No identity is found to stand before itself if there is none that does. -/
theorem nodup_of_firstRepeated? {seen ids : List ServerId} (h : firstRepeated? seen ids = none) :
    ids.Nodup ∧ ∀ id ∈ ids, id ∉ seen := by
  induction ids generalizing seen with
  | nil => exact ⟨List.nodup_nil, nofun⟩
  | cons first rest ih =>
    rw [firstRepeated?] at h
    split at h
    · cases h
    · next hfirst =>
      obtain ⟨hnodup, hnew⟩ := ih h
      refine ⟨List.nodup_cons.2 ⟨fun hmem => ?_, hnodup⟩, fun id hid => ?_⟩
      · exact hnew first hmem (List.mem_cons_self ..)
      · rcases List.mem_cons.1 hid with rfl | hid
        · exact hfirst
        · exact fun hseen => hnew id hid (List.mem_cons_of_mem _ hseen)

/-- A configuration that passes names every member once, and the server among them. -/
theorem Configuration.nodup_of_validate {config : Configuration} (h : config.validate = .ok ()) :
    config.memberIds.Nodup ∧ config.self ∈ config.memberIds := by
  have hfault : config.fault? = none := by
    cases hfault : config.fault? with
    | none => rfl
    | some fault => simp [Configuration.validate, hfault] at h
  unfold Configuration.fault? at hfault
  simp only at hfault
  split at hfault <;> try cases hfault
  split at hfault <;> try cases hfault
  split at hfault <;> try cases hfault
  split at hfault <;> try cases hfault
  split at hfault <;> try cases hfault
  split at hfault
  · cases hfault
  · next hrepeated =>
    split at hfault
    · next hself => exact ⟨(nodup_of_firstRepeated? hrepeated).1, hself⟩
    · cases hfault

/-- A server is connected to all the other members. -/
theorem Configuration.connect_eq {config : Configuration} {channels peers : List ServerId}
    (h : config.connect channels = .ok peers) :
    peers.Nodup ∧ ∀ id, id ∈ peers ↔ id ∈ config.memberIds ∧ id ≠ config.self := by
  unfold Configuration.connect at h
  split at h
  · cases h
    refine ⟨ServerId.nodup_ascending _, fun id => ?_⟩
    rw [ServerId.mem_ascending, Configuration.peerIds, List.mem_filter, decide_eq_true_iff]
  · cases h

end Quorum
