import Quorum.Error

set_option autoImplicit false

/-! # What commands are applied to

The engine knows nothing about commands but that a state machine takes them, one committed entry
after the other. A machine may reject a command; as it does so deterministically, a rejected
command counts as applied. After a restart the log is applied again from its first entry. -/

namespace Quorum

/-- A machine that takes commands with the index of their entry, and answers each with bytes. -/
class StateMachine (μ : Type) where
  /-- Take one command. -/
  apply : μ → Nat → Bytes → Attempt ApplyError Bytes μ

end Quorum
