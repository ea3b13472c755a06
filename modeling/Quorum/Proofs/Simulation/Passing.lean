import Mathlib.Data.List.Perm.Basic
import Quorum.Simulation.Client

set_option autoImplicit false

/-! # How time passes on the wire

While nobody is called, calls end one after the other, each when it is due, and in between time
passes. To let time pass up to an instant is to do this for all calls that end until then. -/

namespace Quorum.Simulation

/-- After which delay a peer replies or fails, if it does. -/
def ScriptItem.delay? : ScriptItem → Option Nat
  | .silent => none
  | .fail delay _ => some delay
  | .reply delay .. => some delay

/-! ## Scripts and calls -/

theorem Wire.script_setScript (wire : Wire) (id peer : ServerId) (script : Script) :
    (wire.setScript id script).script peer = if peer = id then script else wire.script peer := by
  by_cases hpeer : peer = id
  · rw [if_pos hpeer, Wire.script, setScript, hpeer, List.lookup_cons_self, Option.getD_some]
  · rw [if_neg hpeer, Wire.script, setScript, List.lookup_cons, beq_false_of_ne hpeer,
      lookup_filter_ne, if_neg hpeer, Wire.script]

theorem Wire.now_land (wire : Wire) (flight : Flight) (others : List Flight) :
    (wire.land flight others).2.now = max wire.now flight.dueAt := by
  unfold land seeEnd
  split
  · split <;> rfl
  · rfl

theorem Wire.flights_land (wire : Wire) (flight : Flight) (others : List Flight) :
    (wire.land flight others).2.flights = others := by
  unfold land seeEnd
  split
  · split <;> rfl
  · rfl

theorem Wire.scripts_land (wire : Wire) (flight : Flight) (others : List Flight) :
    (wire.land flight others).2.scripts = wire.scripts := by
  unfold land seeEnd
  split
  · split <;> rfl
  · rfl

/-! ## Which call ends next -/

theorem Wire.earliest?_eq_none {flights : List Flight}
    (h : earliest? (fun _ => true) flights = none) : flights = [] := by
  cases flights with
  | nil => rfl
  | cons flight rest =>
    rw [earliest?] at h
    split at h
    · cases h
    · split at h <;> cases h

/-- The call of which something happens next is taken out of all. -/
theorem Wire.earliest?_eq_some {flights others : List Flight} {flight : Flight}
    (h : earliest? (fun _ => true) flights = some (flight, others)) :
    flights.Perm (flight :: others) ∧ ∀ other ∈ others, flight.dueAt ≤ other.dueAt := by
  induction flights generalizing flight others with
  | nil => cases h
  | cons first rest ih =>
    rw [earliest?] at h
    split at h
    · next hrest =>
      cases h
      rw [earliest?_eq_none hrest]
      exact ⟨List.Perm.refl _, List.forall_mem_nil _⟩
    · next next left hrest =>
      obtain ⟨hperm, hnext⟩ := ih hrest
      split at h
      · next hlater =>
        cases h
        have hle : first.dueAt ≤ next.dueAt := by
          simp only [noLater, Bool.true_and, Bool.or_eq_true, Bool.and_eq_true, decide_eq_true_eq,
            beq_iff_eq] at hlater
          omega
        refine ⟨List.Perm.refl _, fun other hother => ?_⟩
        rcases List.mem_cons.1 (hperm.mem_iff.1 hother) with rfl | hmem
        · exact hle
        · exact Nat.le_trans hle (hnext other hmem)
      · next hlater =>
        cases h
        have hle : flight.dueAt ≤ first.dueAt := by
          simp only [noLater, Bool.true_and, Bool.or_eq_true, Bool.and_eq_true, decide_eq_true_eq,
            beq_iff_eq] at hlater
          omega
        exact ⟨(hperm.cons first).trans (List.Perm.swap ..), List.forall_mem_cons.2 ⟨hle, hnext⟩⟩

/-- The call ends with `outcome`, the others are still on their way, and none of them ends
    before. -/
structure Wire.EndsNext (wire : Wire) (flight : Flight) (others : List Flight)
    (outcome : Outcome) : Prop where
  perm : wire.flights.Perm (flight :: others)
  first : ∀ other ∈ others, flight.dueAt ≤ other.dueAt
  arrival : flight.arrival = .ended flight outcome

/-- To let time pass is to let calls end until nothing ends any more up to the instant. -/
theorem endings_induction {limit : Nat} {motive : Wire → List (ServerId × Outcome) → Wire → Prop}
    (stop : ∀ wire, wire.now ≤ limit → (∀ flight ∈ wire.flights, limit < flight.dueAt) →
      motive wire [] (wire.waitUntil limit))
    (next : ∀ wire flight others outcome ended last, wire.EndsNext flight others outcome →
      motive (wire.land flight others).2 ended last →
      motive wire ((flight.callee, outcome) :: ended) last)
    (wire : Wire) (hnow : wire.now ≤ limit)
    (hends : ∀ flight ∈ wire.flights, ∃ outcome, flight.arrival = .ended flight outcome) :
    motive wire (wire.pass limit).1 (wire.pass limit).2 := by
  rw [Wire.pass]
  generalize hbound : wire.flights.length = bound
  induction bound generalizing wire with
  | zero => exact stop wire hnow (by simp [List.eq_nil_of_length_eq_zero hbound])
  | succ bound ih =>
    rw [endings]
    cases hnext : Wire.earliest? (fun _ => true) wire.flights with
    | none => exact stop wire hnow (by simp [Wire.earliest?_eq_none hnext])
    | some found =>
      obtain ⟨flight, others⟩ := found
      obtain ⟨hperm, hfirst⟩ := Wire.earliest?_eq_some hnext
      by_cases hlimit : limit < flight.dueAt
      · simp only [hlimit, if_true]
        refine stop wire hnow fun other hother => ?_
        rcases List.mem_cons.1 (hperm.mem_iff.1 hother) with rfl | hmem
        · exact hlimit
        · exact Nat.lt_of_lt_of_le hlimit (hfirst other hmem)
      · obtain ⟨outcome, harrival⟩ := hends flight (hperm.mem_iff.2 (List.mem_cons_self ..))
        have hland : wire.land flight others =
            (.ended flight outcome, (wire.land flight others).2) :=
          Prod.ext harrival rfl
        simp only [hlimit, if_false]
        rw [hland]
        refine next wire flight others outcome _ _ ⟨hperm, hfirst, harrival⟩ (ih _ ?_ ?_ ?_)
        · rw [Wire.now_land]
          exact Nat.max_le.2 ⟨hnow, Nat.not_lt.1 hlimit⟩
        · rw [Wire.flights_land]
          exact fun other hother => hends other (hperm.mem_iff.2 (List.mem_cons_of_mem _ hother))
        · rw [Wire.flights_land]
          exact Nat.succ.inj ((hperm.length_eq.symm.trans hbound))

end Quorum.Simulation
