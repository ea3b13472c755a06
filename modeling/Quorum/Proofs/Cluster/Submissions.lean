import Quorum.Proofs.Cluster.Tracks

set_option autoImplicit false

/-! # Commands that were submitted

A client that is told that its command was taken knows the entry that the command has become: it is
in the leader's log, in memory and on the disk, and there it stays for as long as that member leads
that term. A write that fails can make a leader's log no shorter, as what it takes out again was
never seen by anybody. So the entry of one success is never that of another, wherever in the run
the two are given. Whoever is told anything else has changed no log in memory.

The reason is that all which a leader has ever acknowledged in its term is part of its log, its own
log included. -/

namespace Quorum.Setup

open Chronicle

variable {σ μ : Type} [LawfulStorage σ] [StateMachine μ] {setup : Setup σ μ}
  {actions : List Action} {time : Nat} {id : ServerId} {command : Bytes}

/-! ## The log of a leader -/

omit [StateMachine μ] in
/-- Who still leads a term has all of the log that it had earlier in the term. -/
theorem Tracks.leader_log_grows {prompt : Prop} {facts facts' : List Fact} {c c' : Cluster σ μ}
    {term : Nat} (h : setup.Tracks prompt facts c) (h' : setup.Tracks prompt facts' c')
    (hsub : facts ⊆ facts') (hleads : c.leads id term) (hleads' : c'.leads id term) :
    c.memory id <+: c'.memory id := by
  obtain ⟨hstanding, hlog⟩ := Cluster.view_of_leads hleads
  obtain ⟨hstanding', hlog'⟩ := Cluster.view_of_leads hleads'
  rw [← hlog, ← hlog']
  exact (h'.possible.commands hstanding').ack (hsub (h.possible.leader_acked hstanding))

/-! ## What a client is told -/

/-- At this moment of the run a client submits a command to a member, which gives the answer. -/
def Answers (setup : Setup σ μ) (actions : List Action) (time : Nat) (id : ServerId)
    (command : Bytes) (result : Except EngineError SubmitReply) : Prop :=
  ∃ clock server, actions[time]? = some (.occur id clock (.submit command)) ∧
    (setup.moment actions time).server? id = some server ∧
    (server.step clock (.submit command)).answer = .submit result

/-- The answer is that of the server, which is the member's from then on. -/
theorem Answers.next {result : Except EngineError SubmitReply}
    (h : setup.Answers actions time id command result) :
    ∃ server, (setup.moment actions time).server? id = some server ∧
      (server.submit command).result = result ∧
      (setup.moment actions (time + 1)).server? id = some (server.submit command).state := by
  obtain ⟨clock, server, haction, hserver, hanswer⟩ := h
  refine ⟨server, hserver, Answer.submit.inj hanswer, ?_⟩
  have hhost : (setup.moment actions (time + 1)).hosts id =
      .up (server.step clock (.submit command)).server := by
    rw [moment_succ, haction]
    show ((setup.moment actions time).perform (.occur id clock (.submit command))).hosts id = _
    unfold Cluster.perform
    simp only [Cluster.event?, Event.isOwn, if_true, hserver]
    rw [Cluster.hosts_step, if_pos rfl]
  unfold Cluster.server?
  rw [hhost]
  rfl

/-- A command that is taken becomes the last entry of a leader's log. -/
theorem Answers.success {prompt : Prop} {facts : List Fact} {index term : Nat}
    (htracks : setup.Tracks prompt facts (setup.moment actions time))
    (h : setup.Answers actions time id command (.ok (.success index term))) :
    (setup.moment actions time).leads id term ∧ (setup.moment actions (time + 1)).leads id term ∧
      ((setup.moment actions (time + 1)).server? id).map (·.term) = some term ∧
      index = ((setup.moment actions time).memory id).length + 1 ∧
      (setup.moment actions (time + 1)).memory id =
        (setup.moment actions time).memory id ++ [⟨term, index, command⟩] := by
  obtain ⟨server, hserver, hresult, hnext⟩ := h.next
  have hcoherent :=
    (htracks.up id server (Cluster.hosts_of_server? hserver)).durable.coherent
  have hsubmits := Server.submits_submit hcoherent command
  unfold Cluster.leads Cluster.memory
  rw [hserver, hnext]
  generalize server.submit command = submitted at hsubmits hresult ⊢
  cases hsubmits with
  | refuses result durable hrefused hlog => exact absurd hresult (hrefused index term)
  | takes leader durable hrole hballot hterm hlog =>
    cases hresult
    have hleads : (Role.leader leader).leads leader.term := by simp [Role.leads]
    refine ⟨?_, hleads, ?_, rfl, ?_⟩
    · show server.role.leads leader.term
      rwa [hrole]
    · exact congrArg some ((congrArg Ballot.term hballot).trans hterm)
    · exact congrArg Log.entries hlog

/-- Any other answer leaves the log in memory as it was. -/
theorem Answers.refused {prompt : Prop} {facts : List Fact}
    {result : Except EngineError SubmitReply}
    (htracks : setup.Tracks prompt facts (setup.moment actions time))
    (h : setup.Answers actions time id command result)
    (hrefused : ∀ index term, result ≠ .ok (.success index term)) :
    (setup.moment actions (time + 1)).memory id = (setup.moment actions time).memory id := by
  obtain ⟨server, hserver, hresult, hnext⟩ := h.next
  have hcoherent :=
    (htracks.up id server (Cluster.hosts_of_server? hserver)).durable.coherent
  have hsubmits := Server.submits_submit hcoherent command
  unfold Cluster.memory
  rw [hserver, hnext]
  generalize server.submit command = submitted at hsubmits hresult ⊢
  cases hsubmits with
  | refuses _ durable _ hlog => exact congrArg Log.entries hlog
  | takes leader => exact absurd hresult.symm (hrefused _ leader.term)

/-! ## Runs -/

/-- The entry of a success is not that of a later one. -/
theorem Answers.unique {prompt : Prop} {facts : Nat → List Fact}
    (hgrows : ∀ i j, i ≤ j → facts i ⊆ facts j)
    (htracks : ∀ time, setup.Tracks prompt (facts time) (setup.moment actions time))
    {time' : Nat} {id' : ServerId} {command' : Bytes} {index term : Nat}
    (h : setup.Answers actions time id command (.ok (.success index term)))
    (h' : setup.Answers actions time' id' command' (.ok (.success index term)))
    (hle : time ≤ time') : time = time' ∧ id = id' := by
  obtain ⟨hleads, hnext, -, hindex, hmemory⟩ := h.success (htracks time)
  obtain ⟨hleads', -, -, hindex', -⟩ := h'.success (htracks time')
  obtain ⟨log, he, -⟩ := (htracks time).elected hleads
  obtain rfl : id = id' := (htracks time').possible.eq_of_leads
    (Cluster.view_of_leads hleads').1 (hgrows time time' hle he)
  refine ⟨?_, rfl⟩
  by_contra hne
  -- the log that has the entry of the first would have no room for that of the second
  have hlt : time + 1 ≤ time' := Nat.lt_of_le_of_ne hle hne
  have hlength := ((htracks (time + 1)).leader_log_grows (htracks time') (hgrows _ _ hlt)
    hnext hleads').length_le
  rw [hmemory, List.length_append, List.length_singleton] at hlength
  omega

/-- What is true of all the commands that clients submit in the course of a run. -/
structure KeepsSubmissions (setup : Setup σ μ) (actions : List Action) : Prop where
  /-- Only who leads the term that it is in says that it has taken a command. -/
  leads : ∀ time id command index term,
    setup.Answers actions time id command (.ok (.success index term)) →
      (setup.moment actions (time + 1)).leads id term ∧
        ((setup.moment actions (time + 1)).server? id).map (·.term) = some term
  /-- From then on the entry is in memory and on the disk, for as long as the member leads. -/
  stays : ∀ time id command index term,
    setup.Answers actions time id command (.ok (.success index term)) →
      ∀ later, time < later → (setup.moment actions later).leads id term →
        0 < index ∧
          ((setup.moment actions later).memory id)[index - 1]? = some ⟨term, index, command⟩ ∧
          ((setup.moment actions later).stored id)[index - 1]? = some ⟨term, index, command⟩
  /-- The log of a leader never gets shorter. -/
  grows : ∀ id term i j, i ≤ j → (setup.moment actions i).leads id term →
    (setup.moment actions j).leads id term →
      (setup.moment actions i).memory id <+: (setup.moment actions j).memory id
  /-- No two commands that are taken become the same entry. -/
  unique : ∀ time id command time' id' command' index term,
    setup.Answers actions time id command (.ok (.success index term)) →
      setup.Answers actions time' id' command' (.ok (.success index term)) →
        time = time' ∧ id = id'
  /-- A command that is not taken changes no log. -/
  refused : ∀ time id command result, setup.Answers actions time id command result →
    (∀ index term, result ≠ .ok (.success index term)) →
      (setup.moment actions (time + 1)).memory id = (setup.moment actions time).memory id

/-- Whoever submits commands in the course of a run can rely on what is answered. -/
theorem keeps_submissions (setup : Setup σ μ) (actions : List Action) :
    setup.KeepsSubmissions actions := by
  obtain ⟨facts, hgrows, htracks, -⟩ := setup.exists_chronicle False actions nofun
  have hlonger : ∀ id term i j, i ≤ j → (setup.moment actions i).leads id term →
      (setup.moment actions j).leads id term →
        (setup.moment actions i).memory id <+: (setup.moment actions j).memory id :=
    fun id term i j hle hi hj => (htracks i).leader_log_grows (htracks j) (hgrows i j hle) hi hj
  constructor
  · intro time id command index term h
    obtain ⟨-, hleads, hterm, -⟩ := h.success (htracks time)
    exact ⟨hleads, hterm⟩
  · intro time id command index term h later hlt hleads
    obtain ⟨-, hnext, -, hindex, hmemory⟩ := h.success (htracks time)
    have hbegins := hlonger id term (time + 1) later hlt hnext hleads
    rw [hmemory] at hbegins
    have hstored := hbegins.trans ((htracks later).memory_prefix_stored id)
    rw [hindex, Nat.add_sub_cancel, ← hindex]
    exact ⟨by omega, getElem?_of_concat_prefix hbegins, getElem?_of_concat_prefix hstored⟩
  · exact hlonger
  · intro time id command time' id' command' index term h h'
    rcases Nat.le_total time time' with hle | hle
    · exact h.unique hgrows htracks h' hle
    · obtain ⟨htime, hid⟩ := h'.unique hgrows htracks h hle
      exact ⟨htime.symm, hid.symm⟩
  · exact fun time id command result h hrefused => h.refused (htracks time) hrefused

/-- Three members, the first of which fails to write once, after it has written its ballot. -/
def failingOnce : Setup (Fated Contents) Journal :=
  .small 3 fun id => if id = ⟨1⟩ then [false, true] else []

/-- Member 1 leads, and is sent one command after the other. -/
def twoCommands : List Action :=
  let clock : Clock := ⟨0, 1⟩
  firstElection ++ [.occur ⟨1⟩ clock (.submit [7]), .occur ⟨1⟩ clock (.submit [8])]

/-- The first command is lost, and the second one takes its place. -/
theorem keeps_submissions_twoCommands :
    failingOnce.Answers twoCommands 9 ⟨1⟩ [7] (.error (.storage diskFull)) ∧
      (failingOnce.moment twoCommands 10).memory ⟨1⟩ =
        (failingOnce.moment twoCommands 9).memory ⟨1⟩ ∧
      failingOnce.Answers twoCommands 10 ⟨1⟩ [8] (.ok (.success 1 1)) ∧
      (failingOnce.moment twoCommands 11).leads ⟨1⟩ 1 ∧
      ((failingOnce.moment twoCommands 11).stored ⟨1⟩)[0]? = some ⟨1, 1, [8]⟩ := by
  have hlost : failingOnce.Answers twoCommands 9 ⟨1⟩ [7] (.error (.storage diskFull)) :=
    ⟨_, _, rfl, rfl, rfl⟩
  have htaken : failingOnce.Answers twoCommands 10 ⟨1⟩ [8] (.ok (.success 1 1)) :=
    ⟨_, _, rfl, rfl, rfl⟩
  obtain ⟨hleads, hstays, -, -, hrefused⟩ := keeps_submissions failingOnce twoCommands
  have hleads := (hleads _ _ _ _ _ htaken).1
  exact ⟨hlost, hrefused _ _ _ _ hlost nofun, htaken, hleads,
    (hstays _ _ _ _ _ htaken 11 (by decide) hleads).2.2⟩

end Quorum.Setup
