import Quorum.Proofs.Chronicle.Completeness

set_option autoImplicit false

/-! # The rules for one member

What can happen, seen from a member whose profile is known, while those of the others are left as
they are. -/

namespace Quorum.Chronicle

@[simp]
theorem View.set_set (view : View) (id : ServerId) (p q : Profile) :
    (view.set id p).set id q = view.set id q := by
  funext other
  unfold View.set
  split <;> rfl

theorem View.set_eq (view : View) {id : ServerId} {p : Profile} (h : view id = p) :
    view.set id p = view := by
  funext other
  unfold View.set
  split
  · next hother => rw [hother, h]
  · rfl

variable {ids : List ServerId} {facts : List Fact} {others : View} {id : ServerId} {p : Profile}

theorem Possible.set_adopt (h : Possible ids facts (others.set id p)) {term : Nat}
    (hlt : p.term < term) : Possible ids facts (others.set id ⟨⟨term, none⟩, p.log, .idle⟩) := by
  simpa using h.adopt id term (by simpa using hlt)

theorem Possible.set_rest (h : Possible ids facts (others.set id p)) :
    Possible ids facts (others.set id { p with standing := .idle }) := by
  simpa using h.rest id

theorem Possible.set_stand (h : Possible ids facts (others.set id p)) :
    Possible ids (.vote id (p.term + 1) id p.log :: .round (p.term + 1) id p.log :: facts)
      (others.set id ⟨⟨p.term + 1, some id⟩, p.log, .running (p.term + 1)⟩) := by
  simpa using h.stand id (p.term + 1) (by simp)

theorem Possible.set_grant (h : Possible ids facts (others.set id p)) {candidate : ServerId}
    {log : List Entry} (hvote : p.vote = none) (hround : Fact.round p.term candidate log ∈ facts)
    (hlast : (endOf log).AtLeast (endOf p.log)) :
    Possible ids (.vote id p.term candidate p.log :: facts)
      (others.set id { p with ballot := ⟨p.term, some candidate⟩ }) := by
  simpa using h.grant id candidate log (by simpa using hvote) (by simpa using hround)
    (by simpa using hlast)

theorem Possible.set_win (h : Possible ids facts (others.set id p)) {term : Nat}
    {group : List ServerId} (hrun : p.standing = .running term) (hgroup : Majority ids group)
    (hvotes : ∀ voter ∈ group, ∃ log, Fact.vote voter term id log ∈ facts) :
    Possible ids (.ack id term p.log :: .election term id p.log :: facts)
      (others.set id { p with standing := .leading term }) := by
  simpa using h.win id term group (by simpa using hrun) hgroup hvotes

theorem Possible.set_push (h : Possible ids facts (others.set id p)) {entry : Entry}
    (hlead : p.standing = .leading entry.term) (hindex : entry.index = p.log.length + 1) :
    Possible ids (.ack id entry.term (p.log ++ [entry]) :: .birth (p.log ++ [entry]) :: facts)
      (others.set id { p with log := p.log ++ [entry] }) := by
  simpa using h.push id entry (by simpa using hlead) (by simpa using hindex)

theorem Possible.set_send (h : Possible ids facts (others.set id p)) {request : AppendRequest}
    {log elected : List Entry} (he : Fact.election request.term id elected ∈ facts)
    (hleader : request.leader = id) (hlog : log <+: p.log) (hcut : request.CutFrom log) :
    Possible ids (.sent request log :: facts) (others.set id p) :=
  h.send id request log elected he hleader (by simpa using hlog) hcut

theorem Possible.set_keep (h : Possible ids facts (others.set id p)) {request : AppendRequest}
    {log : List Entry} (hsent : Fact.sent request log ∈ facts) (hterm : request.term = p.term)
    (hidle : p.standing = .idle) (hlog : log <+: p.log) :
    Possible ids (.ack id request.term log :: facts) (others.set id p) :=
  h.keep id request log hsent (by simpa using hterm) (by simpa using hidle) (by simpa using hlog)

theorem Possible.set_replace (h : Possible ids facts (others.set id p)) {request : AppendRequest}
    {log : List Entry} (hsent : Fact.sent request log ∈ facts) (hterm : request.term = p.term)
    (hidle : p.standing = .idle) (hlog : ¬ log <+: p.log) :
    Possible ids (.ack id request.term log :: facts) (others.set id { p with log }) := by
  simpa using h.replace id request log hsent (by simpa using hterm) (by simpa using hidle)
    (by simpa using hlog)

theorem Possible.set_cut (h : Possible ids facts (others.set id p)) {request : AppendRequest}
    {log : List Entry} {common : Nat} (hsent : Fact.sent request log ∈ facts)
    (hterm : request.term = p.term) (hidle : p.standing = .idle) (hlog : ¬ log <+: p.log)
    (hlongest : ∀ part, part <+: p.log → part <+: log → part.length ≤ common) :
    Possible ids facts (others.set id { p with log := p.log.take common }) := by
  have hlongest' : ∀ part, part <+: p.log → part <+: log → part <+: p.log.take common :=
    fun part hown hpart => List.prefix_take_iff.2 ⟨hown, hlongest part hown hpart⟩
  simpa using h.cut id request log (p.log.take common) hsent (by simpa using hterm)
    (by simpa using hidle) (by simpa using hlog) (by simpa using List.take_prefix ..)
    (by simpa using hlongest')

theorem Possible.set_crash (h : Possible ids facts (others.set id p)) {log : List Entry}
    (hvalid : Valid facts log) (hlog : p.log <+: log) :
    Possible ids facts (others.set id ⟨p.ballot, log, .idle⟩) := by
  simpa using h.crash id log hvalid (by simpa using hlog)

theorem Possible.set_note (h : Possible ids facts (others.set id p)) {log chosen : List Entry}
    (hchosen : Chosen ids facts chosen) (hterm : lastTerm chosen ≤ p.term) (hlog : log <+: chosen)
    (hown : log <+: p.log) : Possible ids (.hold id log :: facts) (others.set id p) :=
  h.note id log chosen hchosen (by simpa using hterm) hlog (by simpa using hown)

end Quorum.Chronicle
