import Mathlib.Data.List.Basic
import Quorum.Rpc.Tally

set_option autoImplicit false

/-! # What a tally comes to

A tally counts one end of a call after the other. What it comes to depends on which calls are over
and on the replies among them, but not on their order: errors are counted as ends and nothing
else. What is counted is never taken back. -/

namespace Quorum.Tally

/-- The replies among the ends of some calls. -/
def replies (results : List (Except CallError VoteReply)) : List VoteReply :=
  results.filterMap Except.toOption

@[simp]
theorem replies_error (error : CallError) (results : List (Except CallError VoteReply)) :
    replies (.error error :: results) = replies results := rfl

@[simp]
theorem replies_ok (reply : VoteReply) (results : List (Except CallError VoteReply)) :
    replies (.ok reply :: results) = reply :: replies results := rfl

/-- The closed form of counting the ends of some calls, one after the other. -/
theorem foldl_count (results : List (Except CallError VoteReply)) (tally : Tally) :
    results.foldl count tally =
      { asked := tally.asked
        votes := tally.votes + (replies results).countP (·.granted)
        largestTerm := ((replies results).map (·.term)).foldl max tally.largestTerm
        completed := tally.completed + results.length } := by
  induction results generalizing tally with
  | nil => rfl
  | cons result results ih =>
    rw [List.foldl_cons, ih]
    cases result with
    | error error => simp [count, Nat.add_assoc, Nat.add_comm 1]
    | ok reply =>
      cases hgranted : reply.granted <;>
        simp [count, hgranted, Nat.add_assoc, Nat.add_comm 1]

/-- The largest of some terms, and 0 if there are none. -/
theorem foldl_max_zero (terms : List Nat) : terms.foldl max 0 = terms.max?.getD 0 := by
  cases terms with
  | nil => rfl
  | cons term terms => rw [List.max?_cons', Option.getD_some, List.foldl_cons, Nat.zero_max]

/-! ## Growing -/

/-- A tally has come at least as far as another in all that a candidate can see. -/
structure Below (a b : Tally) : Prop where
  votes : a.votes ≤ b.votes
  largestTerm : a.largestTerm ≤ b.largestTerm
  isComplete : a.isComplete → b.isComplete

theorem Below.refl (tally : Tally) : tally.Below tally :=
  ⟨Nat.le_refl _, Nat.le_refl _, id⟩

theorem Below.trans {a b c : Tally} (hab : a.Below b) (hbc : b.Below c) : a.Below c where
  votes := Nat.le_trans hab.votes hbc.votes
  largestTerm := Nat.le_trans hab.largestTerm hbc.largestTerm
  isComplete h := hbc.isComplete (hab.isComplete h)

theorem below_count (tally : Tally) (result : Except CallError VoteReply) :
    tally.Below (tally.count result) := by
  have hmore (h : tally.isComplete) : decide (tally.asked ≤ tally.completed + 1) = true :=
    decide_eq_true (Nat.le_succ_of_le (of_decide_eq_true h))
  cases result with
  | error error => exact ⟨Nat.le_refl _, Nat.le_refl _, hmore⟩
  | ok reply =>
    refine ⟨?_, Nat.le_max_left .., hmore⟩
    cases hgranted : reply.granted <;> simp [count, hgranted]

end Quorum.Tally
