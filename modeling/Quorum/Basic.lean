set_option autoImplicit false

/-! # Terms, positions and members

The vocabulary that every other module shares. A *term* numbers an attempt at leadership, where 0
comes before the first one. An *index* numbers a place in the replicated log: the first entry has
index 1, and 0 stands for the place before it. Instants and durations are counted in whole
milliseconds. All of these are natural numbers, and arithmetic on them is plain where it counts what
is there, the entries of a log or the milliseconds of a run. What is told from outside are numbers
of 64 bits, and one more than such a number may be none (`Overflow`). A *member* of the cluster is
known by its `ServerId`, and commands travel as plain bytes.

Operations that can fail half way keep what they have done so far. `Attempt` is the type of their
results: the answer or the error, together with the state that is left behind in either case. -/

namespace Quorum

/-- Uninterpreted contents of a command or of a file. -/
abbrev Bytes := List UInt8

/-! ## Members -/

/-- Stable identity of a member of the cluster. -/
structure ServerId where
  /-- The number that tells members apart. -/
  number : Nat
  deriving DecidableEq, Repr

/-- How a member is called in messages. -/
def ServerId.label (id : ServerId) : String := s!"server-{id.number}"

/-- Insert a member into an ascending list, keeping it ascending; a member that is already there
    is not added again. -/
def ServerId.insert (id : ServerId) : List ServerId → List ServerId
  | [] => [id]
  | other :: rest =>
      if id.number < other.number then id :: other :: rest
      else if id = other then other :: rest
      else other :: ServerId.insert id rest

/-- The members of a list in ascending order, each once. -/
def ServerId.ascending (ids : List ServerId) : List ServerId :=
  ids.foldr ServerId.insert []

/-! ## Numbers of 64 bits -/

/-- One more than the largest number that 64 bits can hold. -/
def wordLimit : Nat := UInt64.size

/-- What becomes of a sum that 64 bits cannot hold. -/
inductive Overflow where
  /-- There is none, and the task that wants it dies. -/
  | traps
  /-- It begins anew at 0. -/
  | wraps
  deriving DecidableEq, Repr

/-- The sum of two numbers of 64 bits, if there is one. -/
def Overflow.add? (overflow : Overflow) (a b : Nat) : Option Nat :=
  match overflow with
  | .traps => if a + b < wordLimit then some (a + b) else none
  | .wraps => some ((a + b) % wordLimit)

/-- A sum that 64 bits can hold is the plain sum. -/
theorem Overflow.add?_of_lt (overflow : Overflow) {a b : Nat} (h : a + b < wordLimit) :
    overflow.add? a b = some (a + b) := by
  cases overflow with
  | traps => exact if_pos h
  | wraps => exact congrArg some (Nat.mod_eq_of_lt h)

/-! ## Lists of pairs -/

/-- Whoever removes the pairs of a key finds nothing under it, and under others what was there. -/
theorem lookup_filter_ne {κ α : Type} [DecidableEq κ] (key wanted : κ) (pairs : List (κ × α)) :
    (pairs.filter (·.1 ≠ key)).lookup wanted =
      if wanted = key then none else pairs.lookup wanted := by
  induction pairs with
  | nil => simp
  | cons first pairs ih =>
    by_cases hfirst : first.1 = key
    · rw [List.filter_cons_of_neg (by simpa using hfirst), ih, List.lookup_cons]
      by_cases hwanted : wanted = key
      · rw [if_pos hwanted, if_pos hwanted]
      · rw [if_neg hwanted, if_neg hwanted, beq_false_of_ne (hfirst ▸ hwanted)]
    · rw [List.filter_cons_of_pos (by simpa using hfirst), List.lookup_cons, List.lookup_cons, ih]
      by_cases hwanted : wanted = key
      · rw [beq_false_of_ne (hwanted ▸ Ne.symm hfirst), if_pos hwanted]
      · rw [if_neg hwanted, if_neg hwanted]

/-! ## Results that keep their state -/

/-- The result of an operation that may fail, with the state it leaves in either case. -/
structure Attempt (ε α σ : Type) where
  /-- What the caller is told. -/
  result : Except ε α
  /-- What the operation has made of the state, also when it failed. -/
  state : σ

/-- An operation that succeeds with the answer `a`. -/
def Attempt.ok {ε α σ : Type} (a : α) (s : σ) : Attempt ε α σ := ⟨.ok a, s⟩

/-- An operation that fails with `e`. -/
def Attempt.error {ε α σ : Type} (e : ε) (s : σ) : Attempt ε α σ := ⟨.error e, s⟩

/-- Go on from where an operation has left the state, unless it failed. -/
def Attempt.andThen {ε α β σ : Type} (first : Attempt ε α σ)
    (next : α → σ → Attempt ε β σ) : Attempt ε β σ :=
  match first.result with
  | .ok a => next a first.state
  | .error e => .error e first.state

@[simp]
theorem Attempt.andThen_ok {ε α β σ : Type} (a : α) (s : σ) (next : α → σ → Attempt ε β σ) :
    (Attempt.ok a s).andThen next = next a s := rfl

@[simp]
theorem Attempt.andThen_error {ε α β σ : Type} (e : ε) (s : σ)
    (next : α → σ → Attempt ε β σ) : (Attempt.error e s).andThen next = .error e s := rfl

/-- An operation that is only followed by the answer `b` leaves its own state. -/
theorem Attempt.andThen_answer {ε α β σ : Type} (a : Attempt ε α σ) (b : β) :
    (a.andThen fun _ s => .ok b s) = ⟨a.result.map fun _ => b, a.state⟩ := by
  obtain ⟨_ | _, _⟩ := a <;> rfl

/-- Put the answer of an operation into other words. -/
def Attempt.map {ε α β σ : Type} (a : Attempt ε α σ) (f : α → β) : Attempt ε β σ :=
  ⟨a.result.map f, a.state⟩

/-- Change the shape of the state that an operation leaves. -/
def Attempt.within {ε α σ τ : Type} (a : Attempt ε α σ) (f : σ → τ) : Attempt ε α τ :=
  ⟨a.result, f a.state⟩

/-- The shape of the state does not matter to an answer that is only put behind. -/
theorem Attempt.within_answer {ε α β σ τ : Type} (a : Attempt ε α σ) (f : σ → τ) (b : β) :
    ((a.within f).andThen fun _ s => .ok b s) = (a.andThen fun _ s => .ok b s).within f := by
  obtain ⟨_ | _, _⟩ := a <;> rfl

/-- The answer that an operation is followed by may be put into other words at once. -/
theorem Attempt.map_answer {ε α β γ σ : Type} (a : Attempt ε α σ) (b : β) (f : β → γ) :
    (a.andThen fun _ s => .ok b s).map f = a.map fun _ => f b := by
  obtain ⟨_ | _, _⟩ := a <;> rfl

/-- Put the errors of one layer into the words of the next. -/
def Attempt.mapError {ε ε' α σ : Type} (a : Attempt ε α σ) (f : ε → ε') : Attempt ε' α σ :=
  ⟨a.result.mapError f, a.state⟩

/-! ## Results that are alike -/

/-- Two operations answer the same, and leave states that `R` relates. -/
def Attempt.Alike {ε α σ : Type} (R : σ → σ → Prop) (a b : Attempt ε α σ) : Prop :=
  a.result = b.result ∧ R a.state b.state

section

variable {ε α β σ : Type} {R : σ → σ → Prop} {a b : Attempt ε α σ}

theorem Attempt.Alike.map (h : a.Alike R b) (f : α → β) : (a.map f).Alike R (b.map f) :=
  ⟨congrArg (Except.map f) h.1, h.2⟩

theorem Attempt.Alike.andThen (h : a.Alike R b) {next next' : α → σ → Attempt ε β σ}
    (hnext : ∀ answer s s', R s s' → (next answer s).Alike R (next' answer s')) :
    (a.andThen next).Alike R (b.andThen next') := by
  obtain ⟨result, s⟩ := a
  obtain ⟨result', s'⟩ := b
  obtain ⟨rfl, hstate⟩ : result = result' ∧ R s s' := h
  cases result with
  | error e => exact ⟨rfl, hstate⟩
  | ok answer => exact hnext answer s s' hstate

end

end Quorum
