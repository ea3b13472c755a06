import Quorum.Server.Basic

set_option autoImplicit false

/-! # The loop of a leader

A leader keeps for each peer the next index to send and the last one known to agree, and sends at
most one request to a peer at a time. At each turn its loop takes one of four branches: it ends
because it was told to, a heartbeat is due, there is something new to replicate, or the outcome of
a request has come. If several are possible, any of them may be taken.

A peer that has taken entries is sent the next ones at once if it is still behind. One that has
refused is tried again further back, where its own last index is a hint. An index is committed once
more than half of the cluster have it and its entry is of the leader's own term. -/

namespace Quorum

/-! ## Counting copies -/

/-- Insert an index into a descending list. -/
def insertDescending (index : Nat) : List Nat → List Nat
  | [] => [index]
  | first :: rest =>
      if first ≤ index then index :: first :: rest else first :: insertDescending index rest

/-- The indices in descending order. -/
def descending (indices : List Nat) : List Nat := indices.foldr insertDescending []

/-- The largest index that more than half of the members reach, if each of them reaches one of
    these indices. -/
def majorityIndex (indices : List Nat) : Nat :=
  (descending indices).getD (indices.length / 2) 0

/-! ## Turns -/

/-- What the loop of a leader does next. -/
inductive Branch where
  /-- End, if it was told to. -/
  | stop
  /-- Send a heartbeat. -/
  | beat
  /-- Replicate what is new, if the loop was woken. -/
  | wake
  /-- Look at the outcome of a request. -/
  | outcome (report : AppendReport)

/-- What comes after a turn. -/
inductive Verdict where
  /-- The next turn. -/
  | goesOn
  /-- The loop ends because it was told to. -/
  | halts
  /-- The loop ends because a peer has shown a newer term. -/
  | stepsDown (term : Nat)
  /-- The loop ends with an error. -/
  | fails (error : EngineError)

/-- The result of a turn. -/
structure Turn (σ μ : Type) where
  calls : List Call
  leader : Leader
  server : Server σ μ
  verdict : Verdict

namespace Server

variable {σ μ : Type}

/-! ## Sending -/

/-- The most entries that a request carries. -/
def batchLimit : Nat := 64

/-- The request that sends a peer the entries from `next` on. -/
def entriesRequest (s : Server σ μ) (term : Nat) (peer : ServerId) (next : Nat) :
    Except EngineError AppendRequest :=
  match s.log.termAt (next - 1) with
  | none => .error (.illegalState (.nextPastEnd next peer))
  | some prevTerm =>
      .ok
        { term
          leader := s.id
          prev := ⟨prevTerm, next - 1⟩
          entries := (s.log.entriesFrom next).take batchLimit
          commit := s.volatile.committed }

/-- Requests that were sent, and what is known of the peers after that. -/
structure Dispatch where
  calls : List Call
  peers : List (ServerId × Progress)
  fault : Option EngineError

/-- Send to each of the peers that `wants` it, up to the first for which there is no request. -/
def dispatch (s : Server σ μ) (term : Nat) (wants : Progress → Bool) :
    List (ServerId × Progress) → Dispatch
  | [] => ⟨[], [], none⟩
  | (peer, progress) :: rest =>
      if wants progress then
        match s.entriesRequest term peer progress.next with
        | .error e => ⟨[], (peer, progress) :: rest, some e⟩
        | .ok request =>
            let later := s.dispatch term wants rest
            ⟨⟨peer, .append request⟩ :: later.calls,
              (peer, { progress with inFlight := true }) :: later.peers, later.fault⟩
      else
        let later := s.dispatch term wants rest
        ⟨later.calls, (peer, progress) :: later.peers, later.fault⟩

/-! ## Committing -/

variable [StateMachine μ]

/-- Commit and apply what more than half of the cluster have, if the last of it is of this term. -/
def commitMajority (s : Server σ μ) (term : Nat) (peers : List (ServerId × Progress)) :
    Attempt EngineError Unit (Server σ μ) :=
  let index := majorityIndex (s.log.last.index :: peers.map (·.2.matched))
  if index ≤ s.volatile.committed then .ok () s
  else if s.log.termAt index ≠ some term then .ok () s
  else
    let raised := s.volatile.raiseCommitted index
    let s := { s with volatile := raised.state }
    match raised.result with
    | .error e => .error e s
    | .ok () => s.applyEntries.andThen fun _ s => .ok () s

/-- Commit after sending, and see how the turn ends. -/
def settle (s : Server σ μ) (leader : Leader) (sent : Dispatch) (nextBeat : Nat) :
    Turn σ μ :=
  let leader := { leader with phase := .running sent.peers nextBeat }
  match sent.fault with
  | some e => ⟨sent.calls, leader, s, .fails e⟩
  | none =>
      let committed := s.commitMajority leader.term sent.peers
      match committed.result with
      | .error e => ⟨sent.calls, leader, committed.state, .fails e⟩
      | .ok () => ⟨sent.calls, leader, committed.state, .goesOn⟩

/-! ## Outcomes -/

/-- Set what is known of one peer. -/
def setProgress (peers : List (ServerId × Progress)) (peer : ServerId) (progress : Progress) :
    List (ServerId × Progress) :=
  peers.map fun (id, known) => if id = peer then (id, progress) else (id, known)

/-- What is known of a peer that has taken entries up to `lastIndex`. -/
def Progress.advance (progress : Progress) (lastIndex : Nat) : Progress :=
  let matched := max progress.matched lastIndex
  { next := matched + 1, matched, inFlight := false }

/-- What is known of a peer that has refused entries and whose log ends at `lastIndex`. -/
def Progress.backOff (progress : Progress) (lastIndex : Nat) : Progress :=
  { progress with next := max 1 (min (progress.next - 1) (lastIndex + 1)), inFlight := false }

/-- Send to one peer, of which `progress` is known. -/
def dispatchTo (s : Server σ μ) (term : Nat) (peers : List (ServerId × Progress))
    (peer : ServerId) (progress : Progress) : Dispatch :=
  match s.entriesRequest term peer progress.next with
  | .error e => ⟨[], setProgress peers peer progress, some e⟩
  | .ok request =>
      ⟨[⟨peer, .append request⟩], setProgress peers peer { progress with inFlight := true }, none⟩

/-- Look at the outcome of a request. -/
def handleReport (s : Server σ μ) (leader : Leader) (peers : List (ServerId × Progress))
    (nextBeat : Nat) (report : AppendReport) : Turn σ μ :=
  let keep (peers : List (ServerId × Progress)) (verdict : Verdict) : Turn σ μ :=
    ⟨[], { leader with phase := .running peers nextBeat }, s, verdict⟩
  match peers.lookup report.peer with
  | none => keep peers .goesOn
  | some progress =>
      let freed := { progress with inFlight := false }
      match report.result with
      | .error _ => keep (setProgress peers report.peer freed) .goesOn
      | .ok reply =>
          if leader.term < reply.term then
            keep (setProgress peers report.peer freed) (.stepsDown reply.term)
          else if reply.success then
            let progress := Progress.advance progress report.lastIndex
            let sent :=
              if progress.next ≤ s.log.last.index then
                s.dispatchTo leader.term peers report.peer progress
              else ⟨[], setProgress peers report.peer progress, none⟩
            s.settle leader sent nextBeat
          else
            let sent :=
              s.dispatchTo leader.term peers report.peer
                (Progress.backOff progress reply.matched)
            let leader := { leader with phase := .running sent.peers nextBeat }
            ⟨sent.calls, leader, s, sent.fault.elim .goesOn .fails⟩

/-! ## The loop -/

/-- Nothing is known of the peers at first, and they are supposed to be up to date. -/
def initialProgress (s : Server σ μ) : List (ServerId × Progress) :=
  s.peers.map fun peer => (peer, ⟨s.log.last.index + 1, 0, false⟩)

/-- A turn of the loop of a leader. The first heartbeat is due at once. -/
def leaderTurn (clock : Clock) (branch : Branch) (leader : Leader) (s : Server σ μ) : Turn σ μ :=
  match leader.phase with
  | .ended => ⟨[], leader, s, .halts⟩
  | .starting =>
      ⟨[], { leader with phase := .running s.initialProgress clock.now }, s, .goesOn⟩
  | .running peers nextBeat =>
      match branch with
      | .stop => ⟨[], leader, s, if leader.stopped then .halts else .goesOn⟩
      | .beat =>
          let sent := s.dispatch leader.term (fun progress => !progress.inFlight) peers
          s.settle leader sent (clock.now + s.config.heartbeat)
      | .wake =>
          if leader.awake then
            let last := s.log.last.index
            let sent :=
              s.dispatch leader.term
                (fun progress => !progress.inFlight && progress.next ≤ last) peers
            s.settle { leader with awake := false } sent nextBeat
          else ⟨[], leader, s, .goesOn⟩
      | .outcome report => s.handleReport leader peers nextBeat report

variable [Storage σ]

/-- A turn of the loop of the present leader. If the loop ends with an error, or cannot adopt a
    newer term, the server recovers as a follower. -/
def runLeader (clock : Clock) (branch : Branch) (leader : Leader) (s : Server σ μ) :
    List Call × Server σ μ :=
  let turn := s.leaderTurn clock branch leader
  let ended := { turn.server with role := .leader { turn.leader with phase := .ended } }
  match turn.verdict with
  | .goesOn => (turn.calls, { turn.server with role := .leader turn.leader })
  | .halts => (turn.calls, ended)
  | .fails _ => (turn.calls, { ended with role := ended.role.stop }.recover clock)
  | .stepsDown term =>
      let stepped := ended.stepDown clock term
      match stepped.result with
      | .ok _ => (turn.calls, stepped.state)
      | .error _ =>
          let failed := stepped.state
          (turn.calls, { failed with role := failed.role.stop }.recover clock)

/-- A turn of a loop whose role was given up. That of a candidate does nothing but end. That of a
    leader may still take any branch before the one that ends it. -/
def runRetired (clock : Clock) (branch : Branch) (i : Nat) (s : Server σ μ) :
    List Call × Server σ μ :=
  match s.retired[i]? with
  | some (.leader leader) =>
      let turn := s.leaderTurn clock branch leader
      let rest := { turn.server with retired := s.retired.eraseIdx i }
      match turn.verdict with
      | .goesOn =>
          (turn.calls, { turn.server with retired := s.retired.set i (.leader turn.leader) })
      | .halts | .fails _ => (turn.calls, rest)
      | .stepsDown term => (turn.calls, (rest.stepDown clock term).state)
  | some _ => ([], { s with retired := s.retired.eraseIdx i })
  | none => ([], s)

end Server

end Quorum
