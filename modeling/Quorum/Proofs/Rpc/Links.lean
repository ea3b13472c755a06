import Mathlib.Data.Sym.Sym2
import Quorum.Rpc.Network

set_option autoImplicit false

/-! # Who reaches whom

A network is changed by cutting and restoring links, isolating members and taking them back, and by
registering and removing handlers, in any order. What it is like then is a matter of last words:
for each member the last that was said about its isolation, for each pair of members the last that
was said about the link between them, and for each member the last that was said about its handler.
To restore all links is a word on every member and every pair.

So isolation and cuts are lifted each by itself, and a link is the same in both directions, although
it is kept as two. -/

namespace Quorum

/-! ## Last words -/

section

variable {σ α β : Type}

/-- The last that a history says about something, where each part of it may say nothing. -/
def lastWord? (word : α → Option β) (history : List α) : Option β :=
  history.reverse.findSome? word

theorem lastWord?_cons (word : α → Option β) (first : α) (history : List α) :
    lastWord? word (first :: history) = (lastWord? word history).or (word first) := by
  unfold lastWord?
  rw [List.reverse_cons, List.findSome?_append, List.findSome?_singleton]

/-- What each step leaves as it is, unless it says otherwise, is what the last word on it was. -/
theorem view_foldl {step : σ → α → σ} (view : σ → β) (word : α → Option β)
    (hstep : ∀ s a, view (step s a) = (word a).getD (view s)) (s : σ) (history : List α) :
    view (history.foldl step s) = (lastWord? word history).getD (view s) := by
  induction history generalizing s with
  | nil => rfl
  | cons first history ih =>
    rw [List.foldl_cons, ih, hstep, lastWord?_cons]
    cases lastWord? word history <;> rfl

end

/-! ## Changes -/

/-- Something that is done to a network. -/
inductive NetworkChange (η : Type) where
  | register (id : ServerId) (handler : η)
  | unregister (id : ServerId)
  /-- The handler of a member goes away. -/
  | release (id : ServerId)
  | cut (a b : ServerId)
  | restore (a b : ServerId)
  | isolate (id : ServerId)
  | rejoin (id : ServerId)
  | restoreAll

variable {η : Type}

/-- Do something to a network. -/
def Network.change (network : Network η) : NetworkChange η → Network η
  | .register id handler => network.register id handler
  | .unregister id => network.unregister id
  | .release id => network.release id
  | .cut a b => network.relink (·.cut a b)
  | .restore a b => network.relink (·.restore a b)
  | .isolate id => network.relink (·.isolate id)
  | .rejoin id => network.relink (·.rejoin id)
  | .restoreAll => network.restoreAll

/-- Do one thing after the other to a network. -/
def Network.after (network : Network η) (changes : List (NetworkChange η)) : Network η :=
  changes.foldl Network.change network

/-- What a change says about the isolation of a member. -/
def NetworkChange.isolates? (id : ServerId) : NetworkChange η → Option Bool
  | .isolate other => if other = id then some true else none
  | .rejoin other => if other = id then some false else none
  | .restoreAll => some false
  | _ => none

/-- What a change says about whether the link of a pair is cut. -/
def NetworkChange.cuts? (pair : Sym2 ServerId) : NetworkChange η → Option Bool
  | .cut a b => if s(a, b) = pair then some true else none
  | .restore a b => if s(a, b) = pair then some false else none
  | .restoreAll => some false
  | _ => none

/-- What a change says about who takes the requests for a member. -/
def NetworkChange.handles? (id : ServerId) : NetworkChange η → Option (Option η)
  | .register other handler => if other = id then some (some handler) else none
  | .unregister other | .release other => if other = id then some none else none
  | _ => none

/-- Two members are linked if neither is isolated and the link between them is not cut. -/
def Linked (history : List (NetworkChange η)) (a b : ServerId) : Prop :=
  lastWord? (NetworkChange.isolates? a) history ≠ some true ∧
    lastWord? (NetworkChange.isolates? b) history ≠ some true ∧
    lastWord? (NetworkChange.cuts? s(a, b)) history ≠ some true

instance (history : List (NetworkChange η)) (a b : ServerId) : Decidable (Linked history a b) := by
  unfold Linked
  infer_instance

/-- A link has no direction. -/
theorem Linked.symm {history : List (NetworkChange η)} {a b : ServerId}
    (h : Linked history a b) : Linked history b a :=
  ⟨h.2.1, h.1, Sym2.eq_swap (a := a) (b := b) ▸ h.2.2⟩

/-- The handler that takes the requests for a member, if one does. -/
def handlerAfter? (history : List (NetworkChange η)) (id : ServerId) : Option η :=
  (lastWord? (NetworkChange.handles? id) history).join

/-! ## Links after a history -/

namespace Network

theorem isolated_change (id : ServerId) (network : Network η) (change : NetworkChange η) :
    (network.change change).links.isolated.contains id =
      (change.isolates? id).getD (network.links.isolated.contains id) := by
  cases change with
  | isolate other =>
    by_cases hother : other = id
    · simp [Network.change, relink, Links.isolate, NetworkChange.isolates?, hother]
    · simp [Network.change, relink, Links.isolate, NetworkChange.isolates?, hother, Ne.symm hother]
  | rejoin other =>
    by_cases hother : other = id
    · simp [Network.change, relink, Links.rejoin, NetworkChange.isolates?, hother]
    · simp [Network.change, relink, Links.rejoin, NetworkChange.isolates?, hother, Ne.symm hother]
  | _ => rfl

/-- A pair in one order or the other. -/
theorem pair_eq_iff (x y a b : ServerId) :
    s(x, y) = s(a, b) ↔ (a, b) = (x, y) ∨ (a, b) = (y, x) := by
  rw [Sym2.eq_iff, Prod.mk.injEq, Prod.mk.injEq]
  constructor <;> rintro (⟨rfl, rfl⟩ | ⟨rfl, rfl⟩) <;> simp

theorem cuts_change (a b : ServerId) (network : Network η) (change : NetworkChange η) :
    (network.change change).links.cuts.contains (a, b) =
      (change.cuts? s(a, b)).getD (network.links.cuts.contains (a, b)) := by
  cases change with
  | cut x y =>
    by_cases hpair : s(x, y) = s(a, b)
    · have hkept := (pair_eq_iff x y a b).1 hpair
      simp only [Network.change, relink, Links.cut, NetworkChange.cuts?, if_pos hpair]
      simpa using or_assoc.1 (Or.inl hkept)
    · have hother := mt (pair_eq_iff x y a b).2 hpair
      rw [not_or] at hother
      simp [Network.change, relink, Links.cut, NetworkChange.cuts?, hpair, hother]
  | restore x y =>
    by_cases hpair : s(x, y) = s(a, b)
    · have hgone := (pair_eq_iff x y a b).1 hpair
      simp only [Network.change, relink, Links.restore, NetworkChange.cuts?, if_pos hpair]
      simp only [Option.getD_some, List.contains_eq_mem, List.mem_filter, decide_eq_false_iff_not,
        decide_eq_true_eq, not_and, ← not_or]
      exact fun _ => not_not_intro hgone
    · have hother := mt (pair_eq_iff x y a b).2 hpair
      rw [not_or] at hother
      simp [Network.change, relink, Links.restore, NetworkChange.cuts?, hpair, hother]
  | _ => rfl

/-! ## Handlers after a history -/

theorem lookup_release (id wanted : ServerId) (handlers : List (ServerId × Option η)) :
    (handlers.map fun (other, handler) => (other, if other = id then none else handler)).lookup
        wanted =
      (handlers.lookup wanted).map fun handler => if wanted = id then none else handler := by
  induction handlers with
  | nil => rfl
  | cons first handlers ih =>
    obtain ⟨other, handler⟩ := first
    rw [List.map_cons, List.lookup_cons, List.lookup_cons, ih]
    by_cases hwanted : wanted = other
    · simp [hwanted]
    · rw [beq_false_of_ne hwanted]

theorem handler?_change (id : ServerId) (network : Network η) (change : NetworkChange η) :
    (network.change change).handler? id =
      (change.handles? id).getD (network.handler? id) := by
  cases change with
  | register other handler =>
    by_cases hother : other = id
    · simp [Network.change, register, handler?, NetworkChange.handles?, hother]
    · have hne : (id == other) = false := beq_false_of_ne (Ne.symm hother)
      simp only [Network.change, register, handler?, NetworkChange.handles?, if_neg hother,
        List.lookup_cons, hne, lookup_filter_ne, if_neg (Ne.symm hother), Option.getD_none]
  | unregister other =>
    by_cases hother : other = id
    · subst hother
      simp only [Network.change, unregister, handler?, NetworkChange.handles?, lookup_filter_ne,
        if_true, Option.getD_some, Option.join_none]
    · simp only [Network.change, unregister, handler?, NetworkChange.handles?, if_neg hother,
        lookup_filter_ne, if_neg (Ne.symm hother), Option.getD_none]
  | release other =>
    by_cases hother : other = id
    · subst hother
      simp only [Network.change, release, handler?, NetworkChange.handles?, lookup_release, if_true,
        Option.getD_some]
      cases network.handlers.lookup other <;> rfl
    · simp only [Network.change, release, handler?, NetworkChange.handles?, if_neg hother,
        lookup_release, if_neg (Ne.symm hother), Option.getD_none, Option.map_id']
  | _ => rfl

/-! ## After a history -/

/-- Two members reach each other if they are linked. -/
theorem connected_after_iff (history : List (NetworkChange η)) (a b : ServerId) :
    (empty.after history).links.connected a b = true ↔ Linked history a b := by
  have hisolated (id : ServerId) : (empty.after history).links.isolated.contains id =
      (lastWord? (NetworkChange.isolates? id) history).getD false :=
    view_foldl (·.links.isolated.contains id) _ (isolated_change id) empty history
  have hcuts : (empty.after history).links.cuts.contains (a, b) =
      (lastWord? (NetworkChange.cuts? s(a, b)) history).getD false :=
    view_foldl (·.links.cuts.contains (a, b)) _ (cuts_change a b) empty history
  have hfalse (word : Option Bool) : word.getD false = false ↔ word ≠ some true := by
    rcases word with _ | _ | _ <;> simp
  rw [Links.connected, hisolated, hisolated, hcuts]
  simp only [Bool.and_eq_true, Bool.not_eq_true', hfalse, and_assoc]
  exact Iff.rfl

theorem connected_after_comm (history : List (NetworkChange η)) (a b : ServerId) :
    (empty.after history).links.connected a b = (empty.after history).links.connected b a := by
  rw [Bool.eq_iff_iff, connected_after_iff, connected_after_iff]
  exact ⟨Linked.symm, Linked.symm⟩

theorem handler?_after (history : List (NetworkChange η)) (id : ServerId) :
    (empty.after history).handler? id = handlerAfter? history id := by
  have hlast : (empty.after history).handler? id =
      (lastWord? (NetworkChange.handles? id) history).getD none :=
    view_foldl (·.handler? id) _ (handler?_change id) empty history
  rw [hlast, handlerAfter?]
  cases lastWord? (NetworkChange.handles? id) history <;> rfl

end Network

end Quorum
