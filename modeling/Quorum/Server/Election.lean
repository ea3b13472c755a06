import Quorum.Server.Basic

set_option autoImplicit false

/-! # The loop of a candidate

A candidate opens a round: it moves to the next term with a vote for itself and asks every peer for
theirs. The round is decided as soon as its own vote and those that came in are more than half of
the cluster, or a reply shows a newer term. If everybody has answered without a decision, or the
timer has run out, the round is given up, and the next one is opened on the timer's timeout.

At each turn the loop first looks whether it is to end. In the last term of 64 bits there is no
other round to open, and the loop dies. -/

namespace Quorum.Server

variable {σ μ : Type} [Storage σ]

/-- Put the loop of the present candidate into another phase. -/
def enterPhase (s : Server σ μ) (candidate : Candidate) (phase : Candidate.Phase) : Server σ μ :=
  { s with role := .candidate { candidate with phase } }

/-- The loop of the candidate has ended because no round could be opened. An error makes the server
    recover; but if it was a sum that has trapped, the loop has died and nobody knows. -/
def candidateFailed (clock : Clock) (candidate : Candidate) (error : EngineError)
    (s : Server σ μ) : Server σ μ :=
  let s := s.enterPhase candidate .ended
  if error = .illegalState .overflow then s else s.recover clock

omit [Storage σ] in
theorem candidateFailed_cases (clock : Clock) (candidate : Candidate) (error : EngineError)
    (s : Server σ μ) :
    s.candidateFailed clock candidate error = s.enterPhase candidate .ended ∨
      s.candidateFailed clock candidate error = (s.enterPhase candidate .ended).recover clock := by
  by_cases htrapped : error = .illegalState .overflow
  · exact Or.inl (if_pos htrapped)
  · exact Or.inr (if_neg htrapped)

/-- The request for the votes of the present term. -/
def voteRequest (s : Server σ μ) (term : Nat) : VoteRequest := ⟨term, s.id, s.log.last⟩

/-- Open a round of votes. -/
def openRound (clock : Clock) (candidate : Candidate) (s : Server σ μ) :
    List Call × Server σ μ :=
  let opened := s.durable.openTerm
  let s := { s with durable := opened.state }
  match opened.result with
  | .error e => ([], s.candidateFailed clock candidate e)
  | .ok term =>
      let request := s.voteRequest term
      (s.peers.map fun peer => ⟨peer, .vote request⟩,
        { s with
          timer := clock.restart s.timer
          volatile := s.volatile.clearLeader
          role :=
            .candidate
              { candidate with
                phase := .counting term (.start s.peers.length)
                timedOut := false } })

/-- Become the leader of a term, if the server is still a candidate in that term and is not shut
    down. The candidate's loop is over either way. -/
def becomeLeader (candidate : Candidate) (term : Nat) (s : Server σ μ) : Server σ μ :=
  if s.isShutDown || s.term != term then s.enterPhase candidate .ended
  else
    { s with
      timer := s.timer.cancel
      volatile := s.volatile.setLeader s.id
      role := .leader (.fresh term s.isShutDown) }

/-- A reply has shown a term that is newer than the round's: adopt it. The candidate's loop is over
    either way. -/
def abandonRound (clock : Clock) (candidate : Candidate) (term : Nat) (s : Server σ μ) :
    Server σ μ :=
  let stepped := (s.enterPhase candidate .ended).stepDown clock term
  match stepped.result with
  | .error _ => stepped.state.recover clock
  | .ok _ => stepped.state

/-- Look at the votes of the present round. -/
def judgeRound (clock : Clock) (candidate : Candidate) (term : Nat) (tally : Tally)
    (s : Server σ μ) : Server σ μ :=
  if term < tally.largestTerm then s.abandonRound clock candidate tally.largestTerm
  else if tally.isWon s.config.clusterSize then s.becomeLeader candidate term
  else if tally.isComplete || candidate.timedOut then s.enterPhase candidate .waiting
  else s

/-- A turn of the loop of the present candidate. -/
def candidateTurn (clock : Clock) (candidate : Candidate) (s : Server σ μ) :
    List Call × Server σ μ :=
  if candidate.stopped then ([], s.enterPhase candidate .ended)
  else
    match candidate.phase with
    | .starting => s.openRound clock candidate
    | .counting term tally => ([], s.judgeRound clock candidate term tally)
    | .waiting => if candidate.timedOut then s.openRound clock candidate else ([], s)
    | .ended => ([], s)

omit [Storage σ] in
/-- Count a reply in the round of its term, if this round is still open. -/
def countVote (term : Nat) (result : Except CallError VoteReply) (s : Server σ μ) :
    Server σ μ :=
  match s.role with
  | .candidate candidate =>
      match candidate.phase with
      | .counting round tally =>
          if round = term then s.enterPhase candidate (.counting round (tally.count result)) else s
      | _ => s
  | _ => s

omit [Storage σ] in
/-- Handle the oldest timeout. One that is no longer current is dropped; otherwise a follower
    becomes a candidate, a candidate is told, and a leader does not care. After a shutdown nobody
    looks at timeouts any more. -/
def takeTimeout (s : Server σ μ) : Server σ μ :=
  if s.isShutDown then s
  else
    match s.timeouts with
    | [] => s
    | timeout :: rest =>
        let s := { s with timeouts := rest }
        if s.timer.isCurrent timeout then
          match s.role with
          | .follower => s.becomeCandidate
          | .candidate candidate => { s with role := .candidate { candidate with timedOut := true } }
          | .leader _ => s
        else s

omit [Storage σ] in
/-- The election timer runs out. -/
def fireTimer (s : Server σ μ) : Server σ μ :=
  let (left, timer) := s.timer.fire
  { s with timer, timeouts := s.timeouts ++ left }

end Quorum.Server
