import Quorum.Proofs.Cluster.Basic

set_option autoImplicit false

/-! # Calls that are awaited

A candidate counts a vote once, because it hears at most one outcome of each of its calls. So what
matters of the calls under way is from whom a member may still hear in a term, and how often. Only
the member's own calls add to that, and what it hears or a crash takes away from it. -/

namespace Quorum

/-- Whom a member has asked for votes in a term without having heard the outcome. -/
def awaited (exchanges : List Exchange) (id : ServerId) (term : Nat) : List ServerId :=
  (exchanges.filter fun x => x.isOpen && x.caller = id && x.call.asksFor term).map
    fun x => x.call.target

variable {id : ServerId} {term : Nat}

theorem awaited_cons (x : Exchange) (xs : List Exchange) :
    awaited (x :: xs) id term =
      if x.isOpen && x.caller = id && x.call.asksFor term then
        x.call.target :: awaited xs id term
      else awaited xs id term := by
  unfold awaited
  rw [List.filter_cons]
  split <;> rfl

theorem awaited_append (xs ys : List Exchange) :
    awaited (xs ++ ys) id term = awaited xs id term ++ awaited ys id term := by
  unfold awaited
  rw [List.filter_append, List.map_append]

/-- Who calls waits for the outcome. -/
theorem awaited_calls (calls : List Call) :
    awaited (calls.map fun call => ⟨id, call, [], true⟩) id term =
      (calls.filter (·.asksFor term)).map Call.target := by
  induction calls with
  | nil => rfl
  | cons call calls ih =>
    rw [List.map_cons, awaited_cons, ih, List.filter_cons]
    simp only [decide_true, Bool.true_and]
    split <;> rfl

theorem awaited_calls_of_ne {other : ServerId} (h : other ≠ id) (calls : List Call) :
    awaited (calls.map fun call => ⟨id, call, [], true⟩) other term = [] := by
  induction calls with
  | nil => rfl
  | cons call calls ih =>
    rw [List.map_cons, awaited_cons, ih, if_neg (by simp [Ne.symm h])]

theorem awaited_abandon {other : ServerId} (h : other ≠ id) (xs : List Exchange) :
    awaited (xs.map (Exchange.abandon id)) other term = awaited xs other term := by
  induction xs with
  | nil => rfl
  | cons x xs ih =>
    rw [List.map_cons, awaited_cons, awaited_cons, ih]
    by_cases hcaller : x.caller = id
    · have hother : id ≠ other := Ne.symm h
      simp [Exchange.abandon, hcaller, hother]
    · simp [Exchange.abandon, hcaller]

/-- Nobody is awaited if no call is open. -/
theorem awaited_eq_nil {xs : List Exchange} (h : ∀ x ∈ xs, x.caller = id → x.isOpen = false) :
    awaited xs id term = [] := by
  unfold awaited
  rw [List.map_eq_nil_iff, List.filter_eq_nil_iff]
  intro x hx hawaited
  simp only [Bool.and_eq_true, decide_eq_true_eq] at hawaited
  rw [h x hx hawaited.1.2] at hawaited
  exact absurd hawaited.1.1 Bool.false_ne_true

/-- What becomes of a list in which one element is changed. -/
theorem modify_eq {α : Type} {xs : List α} {place : Nat} {x : α} (h : xs[place]? = some x)
    (change : α → α) :
    ∃ before after, xs = before ++ x :: after ∧
      xs.modify place change = before ++ change x :: after := by
  obtain ⟨hlt, hx⟩ := List.getElem?_eq_some_iff.1 h
  obtain ⟨before, y, after, rfl, rfl, hmodify⟩ := List.exists_of_modify change hlt
  rw [List.getElem_append_right (Nat.le_refl _)] at hx
  simp only [Nat.sub_self, List.getElem_cons_zero] at hx
  subst hx
  exact ⟨before, after, rfl, hmodify⟩

theorem mem_modify {α : Type} {xs : List α} {place : Nat} {change : α → α} {x : α}
    (h : x ∈ xs.modify place change) : x ∈ xs ∨ ∃ y, xs[place]? = some y ∧ x = change y := by
  cases hy : xs[place]? with
  | none =>
    rw [List.modify_eq_self (List.getElem?_eq_none_iff.1 hy)] at h
    exact Or.inl h
  | some y =>
    obtain ⟨before, after, rfl, hmodify⟩ := modify_eq hy change
    rw [hmodify, List.mem_append, List.mem_cons] at h
    rw [List.mem_append, List.mem_cons]
    rcases h with hbefore | rfl | hafter
    · exact Or.inl (Or.inl hbefore)
    · exact Or.inr ⟨y, rfl, rfl⟩
    · exact Or.inl (Or.inr (Or.inr hafter))

/-- A call whose outcome was heard is not awaited any more. -/
theorem awaited_close {xs : List Exchange} {place : Nat} {x : Exchange} (h : xs[place]? = some x)
    (hopen : x.isOpen) (hasks : x.call.asksFor term) :
    (x.call.target :: awaited (xs.modify place fun x => { x with isOpen := false }) x.caller
      term).Perm (awaited xs x.caller term) := by
  obtain ⟨before, after, rfl, hmodify⟩ := modify_eq h fun x => { x with isOpen := false }
  rw [hmodify, awaited_append, awaited_append, awaited_cons, awaited_cons, if_neg (by simp),
    if_pos (by simp [hopen, hasks])]
  exact List.perm_middle.symm

theorem awaited_close_sublist (xs : List Exchange) (place : Nat) :
    (awaited (xs.modify place fun x => { x with isOpen := false }) id term).Sublist
      (awaited xs id term) := by
  cases h : xs[place]? with
  | none =>
    rw [List.modify_eq_self (List.getElem?_eq_none_iff.1 h)]
  | some x =>
    obtain ⟨before, after, rfl, hmodify⟩ := modify_eq h fun x => { x with isOpen := false }
    rw [hmodify, awaited_append, awaited_append, awaited_cons, awaited_cons, if_neg (by simp)]
    refine List.Sublist.append (List.Sublist.refl _) ?_
    split
    · exact List.sublist_cons_self ..
    · exact List.Sublist.refl _

/-- An answer changes nothing in what is awaited. -/
theorem awaited_answered (xs : List Exchange) (place : Nat) (answer : Answer) :
    awaited (xs.modify place fun x => { x with replies := x.replies ++ [answer] }) id term =
      awaited xs id term := by
  cases h : xs[place]? with
  | none => rw [List.modify_eq_self (List.getElem?_eq_none_iff.1 h)]
  | some x =>
    obtain ⟨before, after, rfl, hmodify⟩ :=
      modify_eq h fun x => { x with replies := x.replies ++ [answer] }
    rw [hmodify, awaited_append, awaited_append, awaited_cons, awaited_cons]

end Quorum
