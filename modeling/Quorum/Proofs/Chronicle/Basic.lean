import Quorum.Message
import Quorum.Proofs.Log.Lists
import Quorum.Proofs.Majority
import Quorum.Storage.Basic

set_option autoImplicit false

/-! # The chronicle of a run

Why a cluster is safe has little to do with timers, calls or the state of a loop. What counts is
what has once happened and cannot be undone: who has voted for whom, who was elected, which entries
were put at the end of which log, what a leader has sent and what was acknowledged. These are the
*facts* of a run. They are listed in its chronicle, to which every step can only add.

Beside the chronicle stands a `Profile` of every member: its ballot, its log, and whether it runs
for a term or leads one. `Possible` says which chronicles and profiles can come about. Each of its
rules is one thing that a member can do, with all the conditions under which it is done.

A leader that has stepped down may still send entries in the term that it led, out of a log that
others have changed since. The rule `send` allows for this: it asks only that the sender was once
elected in the term of the request. -/

namespace Quorum

/-- The request carries the end of `log`: its entries stand there behind the position that it
    names. -/
def AppendRequest.CutFrom (request : AppendRequest) (log : List Entry) : Prop :=
  ∃ before, log = before ++ request.entries ∧ before.length = request.prev.index ∧
    lastTerm before = request.prev.term

namespace Chronicle

/-! ## Facts -/

/-- Something that has happened in a run. -/
inductive Fact where
  /-- A candidate has opened a round of votes for a term, with this log. -/
  | round (term : Nat) (candidate : ServerId) (log : List Entry)
  /-- A member has given its vote in a term, when it had this log. -/
  | vote (voter : ServerId) (term : Nat) (candidate : ServerId) (log : List Entry)
  /-- A candidate has won the election for a term, with this log. -/
  | election (term : Nat) (leader : ServerId) (log : List Entry)
  /-- A leader has put an entry at the end of its log, which is this one since. -/
  | birth (log : List Entry)
  /-- A request was sent that carries the end of this log. -/
  | sent (request : AppendRequest) (log : List Entry)
  /-- A member has told the leader of a term, or has found as that leader, that its own log agrees
      with this one. -/
  | ack (member : ServerId) (term : Nat) (log : List Entry)
  /-- A member has come to know that this part of its log is committed. -/
  | hold (member : ServerId) (log : List Entry)

/-- A log that leaders have made: it is empty, or its last entry was put where it is. -/
def Valid (facts : List Fact) (log : List Entry) : Prop := log = [] ∨ Fact.birth log ∈ facts

/-- More than half of the members have acknowledged a log that reaches as far as this one, in the
    term of its last entry. -/
def Chosen (ids : List ServerId) (facts : List Fact) (log : List Entry) : Prop :=
  Fact.birth log ∈ facts ∧ ∃ group, Majority ids group ∧
    ∀ id ∈ group, ∃ held, Fact.ack id (lastTerm log) held ∈ facts ∧ log.length ≤ held.length

/-! ## Profiles -/

/-- What a member stands for. -/
inductive Standing where
  | idle
  /-- It counts the votes for a term. -/
  | running (term : Nat)
  /-- It leads a term. -/
  | leading (term : Nat)
  deriving DecidableEq, Repr

/-- What of a member the safety of the cluster depends on. -/
structure Profile where
  ballot : Ballot
  log : List Entry
  standing : Standing

/-- The latest term that the member has seen. -/
abbrev Profile.term (p : Profile) : Nat := p.ballot.term

/-- Who has the member's vote in the present term. -/
abbrev Profile.vote (p : Profile) : Option ServerId := p.ballot.vote

/-- The profile of each member. -/
abbrev View := ServerId → Profile

/-- Another profile of one member. -/
def View.set (view : View) (id : ServerId) (profile : Profile) : View :=
  fun other => if other = id then profile else view other

@[simp]
theorem View.set_self (view : View) (id : ServerId) (profile : Profile) :
    view.set id profile id = profile := if_pos rfl

theorem View.set_of_ne (view : View) {id other : ServerId} (profile : Profile)
    (h : other ≠ id) : view.set id profile other = view other := if_neg h

@[grind =]
theorem View.set_apply (view : View) (id other : ServerId) (profile : Profile) :
    view.set id profile other = if other = id then profile else view other := rfl

/-! ## What can happen -/

/-- The chronicles and profiles that can come about in a cluster of the members `ids`. -/
inductive Possible (ids : List ServerId) : List Fact → View → Prop where
  /-- In the beginning nothing has happened. -/
  | blank : Possible ids [] fun _ => ⟨.blank, [], .idle⟩
  /-- A member adopts a newer term. -/
  | adopt {facts : List Fact} {view : View} (id : ServerId) (term : Nat) :
      Possible ids facts view → (view id).term < term →
      Possible ids facts (view.set id ⟨⟨term, none⟩, (view id).log, .idle⟩)
  /-- A member gives up what it stands for. -/
  | rest {facts : List Fact} {view : View} (id : ServerId) :
      Possible ids facts view →
      Possible ids facts (view.set id { view id with standing := .idle })
  /-- A member opens a round for the next term, with a vote for itself. -/
  | stand {facts : List Fact} {view : View} (id : ServerId) (term : Nat) :
      Possible ids facts view → term = (view id).term + 1 →
      Possible ids (.vote id term id (view id).log :: .round term id (view id).log :: facts)
        (view.set id ⟨⟨term, some id⟩, (view id).log, .running term⟩)
  /-- A member that has not voted in its term gives its vote to a candidate whose log is at least
      as up to date as its own. -/
  | grant {facts : List Fact} {view : View} (id candidate : ServerId) (log : List Entry) :
      Possible ids facts view → (view id).vote = none →
      Fact.round (view id).term candidate log ∈ facts →
      (endOf log).AtLeast (endOf (view id).log) →
      Possible ids (.vote id (view id).term candidate (view id).log :: facts)
        (view.set id { view id with ballot := ⟨(view id).term, some candidate⟩ })
  /-- A candidate that has the votes of a majority becomes the leader. -/
  | win {facts : List Fact} {view : View} (id : ServerId) (term : Nat) (group : List ServerId) :
      Possible ids facts view → (view id).standing = .running term → Majority ids group →
      (∀ voter ∈ group, ∃ log, Fact.vote voter term id log ∈ facts) →
      Possible ids (.ack id term (view id).log :: .election term id (view id).log :: facts)
        (view.set id { view id with standing := .leading term })
  /-- A leader puts an entry at the end of its log. -/
  | push {facts : List Fact} {view : View} (id : ServerId) (entry : Entry) :
      Possible ids facts view → (view id).standing = .leading entry.term →
      entry.index = (view id).log.length + 1 →
      Possible ids
        (.ack id entry.term ((view id).log ++ [entry]) :: .birth ((view id).log ++ [entry]) ::
          facts)
        (view.set id { view id with log := (view id).log ++ [entry] })
  /-- A member that was once elected in a term sends a part of the log that it has now. -/
  | send {facts : List Fact} {view : View} (id : ServerId) (request : AppendRequest)
      (log elected : List Entry) :
      Possible ids facts view → Fact.election request.term id elected ∈ facts →
      request.leader = id → log <+: (view id).log → request.CutFrom log →
      Possible ids (.sent request log :: facts) view
  /-- A member acknowledges a request whose entries it has. -/
  | keep {facts : List Fact} {view : View} (id : ServerId) (request : AppendRequest)
      (log : List Entry) :
      Possible ids facts view → Fact.sent request log ∈ facts →
      request.term = (view id).term → (view id).standing = .idle → log <+: (view id).log →
      Possible ids (.ack id request.term log :: facts) view
  /-- A member that lacks some of a request's entries takes them over, and acknowledges it. -/
  | replace {facts : List Fact} {view : View} (id : ServerId) (request : AppendRequest)
      (log : List Entry) :
      Possible ids facts view → Fact.sent request log ∈ facts →
      request.term = (view id).term → (view id).standing = .idle → ¬ log <+: (view id).log →
      Possible ids (.ack id request.term log :: facts) (view.set id { view id with log })
  /-- A member fails to take over a request's entries. What is left of its log is the part that
      it has in common with the leader's. -/
  | cut {facts : List Fact} {view : View} (id : ServerId) (request : AppendRequest)
      (log common : List Entry) :
      Possible ids facts view → Fact.sent request log ∈ facts →
      request.term = (view id).term → (view id).standing = .idle → ¬ log <+: (view id).log →
      common <+: (view id).log →
      (∀ part, part <+: (view id).log → part <+: log → part <+: common) →
      Possible ids facts (view.set id { view id with log := common })
  /-- A member goes down. The log on its disk may reach further than the one that it had. -/
  | crash {facts : List Fact} {view : View} (id : ServerId) (log : List Entry) :
      Possible ids facts view → Valid facts log → (view id).log <+: log →
      Possible ids facts (view.set id ⟨(view id).ballot, log, .idle⟩)
  /-- A member comes to know that a part of its log is committed. -/
  | note {facts : List Fact} {view : View} (id : ServerId) (log chosen : List Entry) :
      Possible ids facts view → Chosen ids facts chosen →
      lastTerm chosen ≤ (view id).term → log <+: chosen → log <+: (view id).log →
      Possible ids (.hold id log :: facts) view

end Chronicle

end Quorum
