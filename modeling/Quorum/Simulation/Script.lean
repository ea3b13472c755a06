import Quorum.Rpc.Call

set_option autoImplicit false

/-! # Peers that follow a script

In a simulation some members are no servers: they answer from a list, one item for each request
they are sent. The last item is used again and again, and without any items there is never an
answer. -/

namespace Quorum.Simulation

/-- The term of a scripted reply. -/
inductive TermRule where
  /-- This term. -/
  | exactly (term : Nat)
  /-- The term of the request and so many more. -/
  | plus (more : Nat)
  deriving DecidableEq, Repr

/-- The term that a rule gives for a request. -/
def TermRule.term (rule : TermRule) (requested : Nat) : Nat :=
  match rule with
  | .exactly term => term
  | .plus more => requested + more

/-- How a scripted call fails. -/
inductive Failing where
  | unreachable
  | timeout
  | rejected (reason : String)
  deriving DecidableEq, Repr

/-- The error of a failing call to `peer`. -/
def Failing.error (failing : Failing) (peer : ServerId) : CallError :=
  match failing with
  | .unreachable => .unreachable peer
  | .timeout => .timeout peer
  | .rejected reason => .rejected peer reason

/-- What a scripted peer does with one request. -/
inductive ScriptItem where
  /-- It never answers. -/
  | silent
  /-- The call fails after a delay. -/
  | fail (delay : Nat) (failing : Failing)
  /-- It answers after a delay: whether it gives its vote or takes the entries, and the index that
      it reports, if that is not the obvious one. -/
  | reply (delay : Nat) (rule : TermRule) (accepts : Bool) (matched : Option Nat)
  deriving DecidableEq, Repr

/-- What a scripted peer does with the requests of each kind. -/
structure Script where
  votes : List ScriptItem
  appends : List ScriptItem
  deriving DecidableEq, Repr

/-- A peer that never answers. -/
def Script.silent : Script := ⟨[], []⟩

/-- The next item of a list, and the list after it was used. -/
def useItem : List ScriptItem → ScriptItem × List ScriptItem
  | [] => (.silent, [])
  | [item] => (item, [item])
  | item :: rest => (item, rest)

/-- The item for a request, and the script after it was used. -/
def Script.use (script : Script) : Request → ScriptItem × Script
  | .vote _ =>
      let (item, votes) := useItem script.votes
      (item, { script with votes })
  | .append _ =>
      let (item, appends) := useItem script.appends
      (item, { script with appends })

/-- How a call ends by an item of the script of `peer`, and after which delay; never for a silent
    one. A peer that takes entries reports the last of them, as far as 64 bits hold its index, and
    one that does not reports 0, unless the item says otherwise. -/
def ScriptItem.outcome? (item : ScriptItem) (peer : ServerId) (request : Request) :
    Option (Nat × Outcome) :=
  match item, request with
  | .silent, _ => none
  | .fail delay failing, request => some (delay, request.failed (failing.error peer))
  | .reply delay rule accepts _, .vote request =>
      some (delay, .vote request (.ok ⟨rule.term request.term, accepts⟩))
  | .reply delay rule accepts matched, .append request =>
      let standard := if accepts then request.lastWord else 0
      some (delay,
        .append request (.ok ⟨rule.term request.term, accepts, matched.getD standard⟩))

end Quorum.Simulation
