import Quorum.Log
import Quorum.StateMachine

set_option autoImplicit false

/-! # The state that a restart loses

How far the log is known to be committed, how far it has been applied to the state machine, and who
leads. The applied index never passes the committed one, and neither goes back. After a restart
all of it starts anew: the leader tells what is committed, and the log is applied again. -/

namespace Quorum

/-- Committed and applied index, and the leader that the server knows of. -/
structure VolatileState where
  committed : Nat
  applied : Nat
  leader : Option ServerId
  deriving DecidableEq, Repr

/-- Nothing committed, nothing applied, no leader known. -/
def VolatileState.initial : VolatileState := ⟨0, 0, none⟩

/-- Set the committed index, which must not go back. -/
def VolatileState.raiseCommitted (v : VolatileState) (index : Nat) :
    Attempt EngineError Unit VolatileState :=
  if index < v.committed then
    .error (.invalidArgument (.commitBelowCommitted index v.committed)) v
  else if index < v.applied then
    .error (.invalidArgument (.commitBelowApplied index v.applied)) v
  else .ok () { v with committed := index }

/-- Set the committed index if that is an increase; the answer tells whether it was. -/
def VolatileState.advanceCommitted (v : VolatileState) (index : Nat) : Bool × VolatileState :=
  if index ≤ v.committed then (false, v) else (true, { v with committed := index })

/-- Set the applied index, which must neither go back nor pass the committed one. -/
def VolatileState.raiseApplied (v : VolatileState) (index : Nat) :
    Attempt EngineError Unit VolatileState :=
  if index < v.applied then
    .error (.invalidArgument (.appliedBelowApplied index v.applied)) v
  else if v.committed < index then
    .error (.invalidArgument (.appliedAboveCommitted index v.committed)) v
  else .ok () { v with applied := index }

/-- Set both indices, the committed one first; that one stays if the other is refused. -/
def VolatileState.setIndices (v : VolatileState) (committed applied : Nat) :
    Attempt EngineError Unit VolatileState :=
  (v.raiseCommitted committed).andThen fun _ v => v.raiseApplied applied

/-- Remember who leads. -/
def VolatileState.setLeader (v : VolatileState) (leader : ServerId) : VolatileState :=
  { v with leader := some leader }

/-- Forget who leads. -/
def VolatileState.clearLeader (v : VolatileState) : VolatileState := { v with leader := none }

/-! ## Applying what is committed -/

variable {μ : Type} [StateMachine μ]

/-- Apply the next `count` entries of the log, one by one; the answer is how many were applied. A
    command that the machine rejects counts as applied, an entry that the log lacks ends the
    work with an error. -/
def applyNext (log : Log) : Nat → VolatileState → μ → Attempt EngineError Nat (VolatileState × μ)
  | 0, v, machine => .ok 0 (v, machine)
  | count + 1, v, machine =>
      match log.entryAt (v.applied + 1) with
      | .error e => .error e (v, machine)
      | .ok entry =>
          let machine := (StateMachine.apply machine entry.index entry.command).state
          let raised := v.raiseApplied (v.applied + 1)
          match raised.result with
          | .error e => .error e (raised.state, machine)
          | .ok () =>
              (applyNext log count raised.state machine).andThen fun n s => .ok (n + 1) s

/-- Apply all entries that are committed and not yet applied. -/
def applyCommitted (log : Log) (v : VolatileState) (machine : μ) :
    Attempt EngineError Nat (VolatileState × μ) :=
  applyNext log (v.committed - v.applied) v machine

end Quorum
