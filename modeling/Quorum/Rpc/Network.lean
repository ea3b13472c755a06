import Quorum.Rpc.Call

set_option autoImplicit false

/-! # A network that can be cut

Members reach each other over links. A link is up if neither end is isolated and the link itself
is not cut; both are lifted independently. Handlers are registered under the member whose requests
they take. A registration does not keep its handler alive, so it can lead nowhere.

A call needs the link twice: before the handler runs, and for the reply after it has run. If the
handler itself brings the link down, its work is done and the caller hears nothing. -/

namespace Quorum

/-! ## Links -/

/-- What is wrong with the links between members. -/
structure Links where
  /-- Cut links, each in both directions. -/
  cuts : List (ServerId × ServerId)
  /-- Members without any link. -/
  isolated : List ServerId
  deriving DecidableEq, Repr

namespace Links

/-- All links are up. -/
def intact : Links := ⟨[], []⟩

/-- Cut the link between two members. -/
def cut (links : Links) (a b : ServerId) : Links :=
  { links with cuts := (a, b) :: (b, a) :: links.cuts }

/-- Restore the link between two members. -/
def restore (links : Links) (a b : ServerId) : Links :=
  { links with cuts := links.cuts.filter fun link => link ≠ (a, b) ∧ link ≠ (b, a) }

/-- Cut every link of a member. -/
def isolate (links : Links) (id : ServerId) : Links :=
  { links with isolated := id :: links.isolated }

/-- Undo the isolation of a member; cut links stay cut. -/
def rejoin (links : Links) (id : ServerId) : Links :=
  { links with isolated := links.isolated.filter (· ≠ id) }

/-- Whether a message gets from `sender` to `target`. -/
def connected (links : Links) (sender target : ServerId) : Bool :=
  !links.isolated.contains sender && !links.isolated.contains target
    && !links.cuts.contains (sender, target)

end Links

/-! ## Handlers -/

/-- Links, and who takes the requests for whom. -/
structure Network (η : Type) where
  links : Links
  /-- The handler of each registered member; none if it is gone. -/
  handlers : List (ServerId × Option η)

/-- What a handler made of a request: its reply, what it did besides, and the network then. -/
structure Handled (ρ α η : Type) where
  reply : Except EngineError ρ
  effect : α
  network : Network η

/-- How a call over the network went: what the caller sees, what the handler did besides if it ran
    at all, and the network then. -/
structure Delivery (ρ α η : Type) where
  result : Except CallError ρ
  effect : Option α
  network : Network η

namespace Network

variable {η ρ α : Type}

/-- A network without handlers, with all links up. -/
def empty : Network η := ⟨.intact, []⟩

/-- Register the handler of a member, instead of an earlier one. -/
def register (network : Network η) (id : ServerId) (handler : η) : Network η :=
  { network with handlers := (id, some handler) :: network.handlers.filter (·.1 ≠ id) }

/-- Remove the registration of a member. -/
def unregister (network : Network η) (id : ServerId) : Network η :=
  { network with handlers := network.handlers.filter (·.1 ≠ id) }

/-- The handler of a member goes away, as nobody holds it any more: neither its owner nor a call
    that has reached it and waits for its turn. Its registration stays. -/
def release (network : Network η) (id : ServerId) : Network η :=
  { network with
    handlers := network.handlers.map fun (other, handler) =>
      (other, if other = id then none else handler) }

/-- The handler of a member, if it is registered and there. -/
def handler? (network : Network η) (id : ServerId) : Option η :=
  (network.handlers.lookup id).join

/-- Change the links. -/
def relink (network : Network η) (change : Links → Links) : Network η :=
  { network with links := change network.links }

/-- Restore all links. -/
def restoreAll (network : Network η) : Network η := { network with links := .intact }

/-- The handler that a message from `sender` to `target` reaches. -/
def route (network : Network η) (sender target : ServerId) : Except CallError η :=
  if network.links.connected sender target then
    match network.handler? target with
    | some handler => .ok handler
    | none => .error (.unreachable target)
  else .error (.unreachable target)

/-- What the caller sees of a reply, if the way back is still there. -/
def returnReply (network : Network η) (sender target : ServerId) (reply : Except EngineError ρ) :
    Except CallError ρ :=
  if network.links.connected target sender then
    match reply with
    | .ok reply => .ok reply
    | .error e => .error (.rejected target e.message)
  else .error (.unreachable target)

/-- Call `target`, where `handle` says what a handler makes of the request. -/
def call (network : Network η) (sender target : ServerId)
    (handle : η → Network η → Handled ρ α η) : Delivery ρ α η :=
  match network.route sender target with
  | .error e => ⟨.error e, none, network⟩
  | .ok handler =>
      let handled := handle handler network
      ⟨handled.network.returnReply sender target handled.reply, some handled.effect,
        handled.network⟩

end Network

end Quorum
