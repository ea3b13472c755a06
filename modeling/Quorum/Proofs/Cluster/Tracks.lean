import Mathlib.Tactic.Choose
import Quorum.Proofs.Cluster.Awaited

set_option autoImplicit false

/-! # The chronicle of a run

Every run has a chronicle that bears out what its servers know and what is under way between them.
This is shown action by action: whatever happens, it happens to one member, whose step is sound, and
all the others only see the chronicle grow. -/

namespace Quorum

open Chronicle

/-! ## The cluster as the chronicle sees it -/

/-- The profile of a member. One that is down stands for nothing. -/
def Host.profile {σ μ : Type} [LawfulStorage σ] : Host σ μ → Profile
  | .up server => server.profile
  | .down disk => ⟨(contents disk).ballot, (contents disk).log, .idle⟩

/-- The profiles of all members. -/
def Cluster.view {σ μ : Type} [LawfulStorage σ] (c : Cluster σ μ) : View :=
  fun id => (c.hosts id).profile

/-- The cluster as one of its members finds it. -/
def Setup.site {σ μ : Type} [LawfulStorage σ] (setup : Setup σ μ) (prompt : Prop)
    (c : Cluster σ μ) (id : ServerId) : Site :=
  ⟨setup.ids, id, c.view, awaited c.exchanges id, prompt⟩

/-- A site of which nothing is known but the members and the server. -/
def Site.bare (ids : List ServerId) (prompt : Prop) (id : ServerId) : Site :=
  ⟨ids, id, fun _ => ⟨.blank, [], .idle⟩, fun _ => [], prompt⟩

/-- A call was made for good reason, and what was answered to it is true. -/
structure Exchange.Sound (ids : List ServerId) (prompt : Prop) (facts : List Fact)
    (x : Exchange) : Prop where
  call : x.call.Sound (.bare ids prompt x.caller) facts
  vote : ∀ request, x.call.request = .vote request → ∀ answer ∈ x.replies, ∀ reply,
    answer.voteReply = .ok reply → reply.Sound facts x.call.target request
  append : ∀ request, x.call.request = .append request → ∀ answer ∈ x.replies, ∀ reply,
    answer.appendReply = .ok reply → reply.Sound facts x.call.target request

theorem Exchange.Sound.mono {ids : List ServerId} {prompt : Prop} {facts facts' : List Fact}
    {x : Exchange} (h : x.Sound ids prompt facts) (hsub : facts ⊆ facts') :
    x.Sound ids prompt facts' :=
  ⟨h.call.mono hsub,
    fun request hrequest answer hanswer reply hok =>
      (h.vote request hrequest answer hanswer reply hok).mono hsub,
    fun request hrequest answer hanswer reply hok =>
      (h.append request hrequest answer hanswer reply hok).mono hsub⟩

theorem ok_of_mapError {ε ε' α : Type} {result : Except ε α} {change : ε → ε'} {a : α}
    (h : result.mapError change = .ok a) : result = .ok a := by
  cases result with
  | error e => cases h
  | ok b => exact congrArg Except.ok (Except.ok.inj h)

/-- An event that needs nothing from others tells nothing that could be wrong. -/
theorem Event.sound_of_isOwn {event : Event} (hown : event.isOwn) (site : Site)
    (facts : List Fact) : event.Sound site facts := by
  cases event with
  | turn branch | retiredTurn place branch =>
    intro term
    cases branch with
    | outcome report => exact absurd hown Bool.false_ne_true
    | _ => trivial
  | requestVote _ | appendEntries _ | voteResult _ _ | appendResult _ _ =>
    exact absurd hown Bool.false_ne_true
  | _ => trivial

/-- What the caller hears of a call is what was asked, and what was answered to it if anything. -/
theorem Exchange.Sound.outcome {ids : List ServerId} {prompt : Prop} {facts : List Fact}
    {x : Exchange} (h : x.Sound ids prompt facts) {ending : Ending} {outcome : Outcome}
    (houtcome : x.outcome? ending = some outcome) :
    x.isOpen ∧
      (∀ request, x.call.request = .vote request → ∃ result, outcome = .vote request result ∧
        ∀ reply, result = .ok reply → reply.Sound facts x.call.target request) ∧
      (∀ request, x.call.request = .append request → ∃ result, outcome = .append request result ∧
        ∀ reply, result = .ok reply → reply.Sound facts x.call.target request) := by
  unfold Exchange.outcome? at houtcome
  split at houtcome
  · next hopen =>
    refine ⟨hopen, fun request hrequest => ?_, fun request hrequest => ?_⟩
    · cases ending with
      | failure error =>
        simp only [hrequest, Request.failed, Option.some.injEq] at houtcome
        exact ⟨_, houtcome.symm, nofun⟩
      | reply place =>
        obtain ⟨answer, hanswer, rfl⟩ := Option.map_eq_some_iff.1 houtcome
        simp only [Exchange.replied, hrequest]
        refine ⟨_, rfl, fun reply hreply => ?_⟩
        exact h.vote request hrequest answer (List.mem_of_getElem? hanswer) reply
          (ok_of_mapError hreply)
    · cases ending with
      | failure error =>
        simp only [hrequest, Request.failed, Option.some.injEq] at houtcome
        exact ⟨_, houtcome.symm, nofun⟩
      | reply place =>
        obtain ⟨answer, hanswer, rfl⟩ := Option.map_eq_some_iff.1 houtcome
        simp only [Exchange.replied, hrequest]
        refine ⟨_, rfl, fun reply hreply => ?_⟩
        exact h.append request hrequest answer (List.mem_of_getElem? hanswer) reply
          (ok_of_mapError hreply)
  · cases houtcome

namespace Setup

variable {σ μ : Type} [LawfulStorage σ]

/-- The chronicle bears out all that is in the cluster. -/
structure Tracks (setup : Setup σ μ) (prompt : Prop) (facts : List Fact) (c : Cluster σ μ) :
    Prop where
  possible : Possible setup.ids facts c.view
  up : ∀ id server, c.hosts id = .up server → server.Sound (setup.site prompt c id) facts
  /-- A member that is down does not wait for anything. -/
  down : ∀ id disk, c.hosts id = .down disk → ∀ x ∈ c.exchanges, x.caller = id →
    x.isOpen = false
  exchange : ∀ x ∈ c.exchanges, x.Sound setup.ids prompt facts

end Setup

/-! ## Changes of the cluster -/

namespace Cluster

variable {σ μ : Type}

theorem hosts_setHost (c : Cluster σ μ) (id : ServerId) (host : Host σ μ) :
    (c.setHost id host).hosts id = host := if_pos rfl

theorem hosts_setHost_of_ne (c : Cluster σ μ) {id other : ServerId} (host : Host σ μ)
    (h : other ≠ id) : (c.setHost id host).hosts other = c.hosts other := if_neg h

theorem view_setHost [LawfulStorage σ] (c : Cluster σ μ) (id : ServerId) (host : Host σ μ) :
    (c.setHost id host).view = c.view.set id host.profile := by
  funext other
  by_cases h : other = id
  · rw [h, View.set_self]
    exact congrArg Host.profile (c.hosts_setHost id host)
  · rw [View.set_of_ne _ _ h]
    exact congrArg Host.profile (c.hosts_setHost_of_ne host h)

/-- Only the member that makes a step changes. -/
theorem hosts_step (c : Cluster σ μ) (action : Action) (id other : ServerId)
    (result : StepResult σ μ) :
    (((c.close action).moved id result).answered result.answer action).hosts other =
      if other = id then .up result.server else c.hosts other := by
  cases action <;> rfl

theorem hosts_of_server? {c : Cluster σ μ} {id : ServerId} {server : Server σ μ}
    (h : c.server? id = some server) : c.hosts id = .up server := by
  unfold Cluster.server? at h
  split at h
  · next hhost => rw [hhost, Option.some.inj h]
  · cases h

/-- How the chronicle sees a member that leads. -/
theorem view_of_leads [LawfulStorage σ] {c : Cluster σ μ} {id : ServerId} {term : Nat}
    (h : c.leads id term) :
    (c.view id).standing = .leading term ∧ (c.view id).log = c.memory id := by
  unfold Cluster.leads Cluster.server? at h
  unfold Cluster.view Cluster.memory Cluster.server?
  cases hhost : c.hosts id with
  | down disk => simp [hhost] at h
  | up server =>
    rw [hhost] at h
    refine ⟨?_, rfl⟩
    show server.role.standing = .leading term
    cases hrole : server.role with
    | follower => simp [hrole, Role.leads] at h
    | candidate candidate => simp [hrole, Role.leads] at h
    | leader leader =>
      obtain rfl : leader.term = term := by simpa [hrole, Role.leads] using h
      rfl

end Cluster

namespace Setup

variable {σ μ : Type} [LawfulStorage σ] {setup : Setup σ μ} {prompt : Prop}
  {facts facts' : List Fact} {c : Cluster σ μ} {id : ServerId}

theorem tracks_initial (setup : Setup σ μ) (prompt : Prop) :
    setup.Tracks prompt [] setup.initial := by
  have hview : setup.initial.view = fun _ => ⟨.blank, [], .idle⟩ := by
    funext id
    show Profile.mk (contents (setup.disk id)).ballot (contents (setup.disk id)).log _ = _
    rw [setup.blank id]
    rfl
  refine ⟨hview ▸ .blank, fun id server hup => ?_, fun _ _ _ => nofun, nofun⟩
  cases hup

/-- A server that is left alone stays sound. -/
theorem Tracks.elsewhere (h : setup.Tracks prompt facts c) {server : Server σ μ}
    (hup : c.hosts id = .up server) (hsub : facts ⊆ facts') {c' : Cluster σ μ}
    (hup' : c'.hosts id = .up server) (hpossible : Possible setup.ids facts' c'.view)
    (hawaited : ∀ term, (awaited c'.exchanges id term).Subperm (awaited c.exchanges id term)) :
    server.Sound (setup.site prompt c' id) facts' := by
  have hprofile : c'.view id = server.profile := by
    unfold Cluster.view
    rw [hup']
    rfl
  refine (h.up id server hup).resite hsub hawaited ?_
  show Possible setup.ids facts' (c'.view.set id server.profile)
  rwa [View.set_eq _ hprofile]

/-! ## Starts and crashes -/

theorem Tracks.boot (h : setup.Tracks prompt facts c) (id : ServerId) (clock : Clock)
    (channels : List ServerId) : setup.Tracks prompt facts (setup.boot c id clock channels) := by
  unfold Setup.boot
  split
  · exact h
  · next disk hdown =>
    split
    · next hid =>
      split
      · next server hstart =>
        have hprofile : c.view id = (Host.down disk : Host σ μ).profile := by
          unfold Cluster.view
          rw [hdown]
        -- whatever it has asked before it went down, nobody hears any more
        have hawaited : ∀ term, awaited c.exchanges id term = [] := fun term =>
          awaited_eq_nil (h.down id disk hdown)
        obtain ⟨hsound, hsame⟩ := @Server.sound_of_start σ μ _ (setup.site prompt c id) facts server
          _ _ _ _ _ hstart (setup.self_eq id hid) (setup.memberIds_perm id hid) hawaited (by
            show Possible setup.ids facts (c.view.set id (Host.down disk : Host σ μ).profile)
            rw [View.set_eq _ hprofile]
            exact h.possible)
        have hview : (c.setHost id (.up server)).view = c.view := by
          rw [Cluster.view_setHost]
          exact View.set_eq _ (hprofile.trans hsame.symm)
        refine ⟨hview.symm ▸ h.possible, fun other s hup => ?_, fun other disk' hdown' => ?_,
          h.exchange⟩
        · by_cases hother : other = id
          · subst hother
            rw [Cluster.hosts_setHost] at hup
            obtain rfl := Host.up.inj hup
            unfold Setup.site
            rw [hview]
            exact hsound
          · have hold := hup
            rw [Cluster.hosts_setHost_of_ne _ _ hother] at hold
            exact h.elsewhere hold (List.Subset.refl _) hup (hview.symm ▸ h.possible)
              fun term => List.Subperm.refl _
        · by_cases hother : other = id
          · subst hother
            rw [Cluster.hosts_setHost] at hdown'
            cases hdown'
          · rw [Cluster.hosts_setHost_of_ne _ _ hother] at hdown'
            exact h.down other disk' hdown'
      · exact h
    · exact h

/-- A server that runs is not started again. -/
theorem boot_hosts_of_up (id : ServerId) (clock : Clock) (channels : List ServerId)
    {other : ServerId} {server : Server σ μ} (hup : c.hosts other = .up server) :
    (setup.boot c id clock channels).hosts other = .up server := by
  unfold Setup.boot
  split
  · exact hup
  · next disk hdown =>
    have hother : other ≠ id := by
      rintro rfl
      cases hup.symm.trans hdown
    split
    · split
      · rw [Cluster.hosts_setHost_of_ne _ _ hother]
        exact hup
      · exact hup
    · exact hup

/-- What a member leaves on its disk is what it had, or more of what leaders have made. -/
theorem Tracks.possible_crash (h : setup.Tracks prompt facts c) (id : ServerId) :
    Possible setup.ids facts (c.crash id).view := by
  have hview : (c.crash id).view = c.view.set id (Host.down (c.hosts id).disk : Host σ μ).profile :=
    c.view_setHost id _
  rw [hview]
  cases hhost : c.hosts id with
  | down disk =>
    have hprofile : c.view id = (Host.down disk : Host σ μ).profile := by
      unfold Cluster.view
      rw [hhost]
    rw [Host.disk, View.set_eq _ hprofile]
    exact h.possible
  | up server =>
    have hsound := h.up id server hhost
    have hcrash := hsound.possible.set_crash hsound.durable.valid hsound.durable.coherent.log
    show Possible setup.ids facts (c.view.set id ⟨(contents server.durable.disk).ballot, _, _⟩)
    rw [hsound.durable.coherent.ballot]
    exact hcrash

theorem Tracks.crash (h : setup.Tracks prompt facts c) (id : ServerId) :
    setup.Tracks prompt facts (c.crash id) := by
  have hpossible := h.possible_crash id
  refine ⟨hpossible, fun other s hup => ?_, fun other disk hdown x hx hcaller => ?_, fun x hx => ?_⟩
  · by_cases hother : other = id
    · subst hother
      have hdown : (c.crash other).hosts other = .down _ := c.hosts_setHost other _
      rw [hdown] at hup
      cases hup
    · have hold : (c.crash id).hosts other = c.hosts other := c.hosts_setHost_of_ne _ hother
      refine h.elsewhere (hold ▸ hup) (List.Subset.refl _) hup hpossible fun term => ?_
      show (awaited (c.exchanges.map (Exchange.abandon id)) other term).Subperm _
      rw [awaited_abandon hother]
  · obtain ⟨y, hy, rfl⟩ := List.mem_map.1 hx
    by_cases hyid : y.caller = id
    · simp [Exchange.abandon, hyid]
    · rw [Exchange.abandon, if_neg hyid] at hcaller ⊢
      by_cases hother : other = id
      · exact absurd (hcaller.trans hother) hyid
      · have hold : (c.crash id).hosts other = c.hosts other := c.hosts_setHost_of_ne _ hother
        exact h.down other disk (hold ▸ hdown) y hy hcaller
  · obtain ⟨y, hy, rfl⟩ := List.mem_map.1 hx
    have hsound := h.exchange y hy
    unfold Exchange.abandon
    split
    · exact ⟨hsound.call, hsound.vote, hsound.append⟩
    · exact hsound

/-! ## Steps of one member -/

/-- A member may stop to wait for an outcome. -/
theorem Tracks.close (h : setup.Tracks prompt facts c) (action : Action) :
    setup.Tracks prompt facts (c.close action) := by
  unfold Cluster.close
  split
  · next place clock ending =>
    refine ⟨h.possible, fun other s hup => ?_, fun other disk hdown x hx hcaller => ?_,
      fun x hx => ?_⟩
    · exact h.elsewhere hup (List.Subset.refl _) hup h.possible fun term =>
        (awaited_close_sublist c.exchanges place).subperm
    · rcases mem_modify hx with hold | ⟨y, hy, rfl⟩
      · exact h.down other disk hdown x hold hcaller
      · rfl
    · rcases mem_modify hx with hold | ⟨y, hy, rfl⟩
      · exact h.exchange x hold
      · have hsound := h.exchange y (List.mem_of_getElem? hy)
        exact ⟨hsound.call, hsound.vote, hsound.append⟩
  · exact h

/-- What is answered truthfully may be remembered. -/
theorem Tracks.answered (h : setup.Tracks prompt facts c) {answer : Answer} (action : Action)
    (hanswer : ∀ place clock, action = .deliver place clock → ∀ x, c.exchanges[place]? = some x →
      (∀ request, x.call.request = .vote request → ∀ reply, answer.voteReply = .ok reply →
        reply.Sound facts x.call.target request) ∧
      (∀ request, x.call.request = .append request → ∀ reply, answer.appendReply = .ok reply →
        reply.Sound facts x.call.target request)) :
    setup.Tracks prompt facts (c.answered answer action) := by
  unfold Cluster.answered
  split
  · next place clock =>
    refine ⟨h.possible, fun other s hup => ?_, fun other disk hdown x hx hcaller => ?_,
      fun x hx => ?_⟩
    · refine h.elsewhere hup (List.Subset.refl _) hup h.possible fun term => ?_
      show (awaited (c.exchanges.modify place _) other term).Subperm _
      rw [awaited_answered]
    · rcases mem_modify hx with hold | ⟨y, hy, rfl⟩
      · exact h.down other disk hdown x hold hcaller
      · exact h.down other disk hdown y (List.mem_of_getElem? hy) hcaller
    · rcases mem_modify hx with hold | ⟨y, hy, rfl⟩
      · exact h.exchange x hold
      · have hsound := h.exchange y (List.mem_of_getElem? hy)
        obtain ⟨hvote, happend⟩ := hanswer place clock rfl y hy
        refine ⟨hsound.call, fun request hrequest other hother reply hok => ?_,
          fun request hrequest other hother reply hok => ?_⟩
        · -- an answer that was given before, or the new one
          rcases List.mem_append.1 hother with hold | hnew
          · exact hsound.vote request hrequest other hold reply hok
          · exact hvote request hrequest reply (List.mem_singleton.1 hnew ▸ hok)
        · rcases List.mem_append.1 hother with hold | hnew
          · exact hsound.append request hrequest other hold reply hok
          · exact happend request hrequest reply (List.mem_singleton.1 hnew ▸ hok)
  · exact h

/-- A member has made a sound step. -/
theorem Tracks.moved (h : setup.Tracks prompt facts c) {server : Server σ μ}
    (hup : c.hosts id = .up server) (hsub : facts ⊆ facts') {result : StepResult σ μ}
    (hserver : result.server.Sound ((setup.site prompt c id).asked result.calls) facts')
    (hcalls : ∀ call ∈ result.calls, call.Sound (setup.site prompt c id) facts') :
    setup.Tracks prompt facts' (c.moved id result) := by
  have hview : (c.moved id result).view = c.view.set id result.server.profile :=
    c.view_setHost id _
  have hpossible : Possible setup.ids facts' (c.moved id result).view :=
    hview.symm ▸ hserver.possible
  have hhost : (c.moved id result).hosts id = .up result.server := c.hosts_setHost id _
  refine ⟨hpossible, fun other s hup' => ?_, fun other disk hdown x hx hcaller => ?_,
    fun x hx => ?_⟩
  · by_cases hother : other = id
    · subst hother
      rw [hhost] at hup'
      obtain rfl := Host.up.inj hup'
      -- it waits for those whom it has just asked as well
      have hsite : ∀ term, (awaited (c.moved other result).exchanges other term).Subperm
          (((setup.site prompt c other).asked result.calls).pending term) := by
        intro term
        show (awaited (c.exchanges ++ _) other term).Subperm _
        rw [awaited_append, awaited_calls]
        exact List.Subperm.refl _
      refine hserver.resite (List.Subset.refl _) hsite ?_
      show Possible setup.ids facts' ((c.moved other result).view.set other result.server.profile)
      rw [hview, View.set_set]
      exact hserver.possible
    · -- nobody else is up or waits because of that
      have hold : (c.moved id result).hosts other = c.hosts other := c.hosts_setHost_of_ne _ hother
      refine h.elsewhere (hold ▸ hup') hsub hup' hpossible fun term => ?_
      show (awaited (c.exchanges ++ _) other term).Subperm _
      rw [awaited_append, awaited_calls_of_ne hother, List.append_nil]
  · by_cases hother : other = id
    · subst hother
      rw [hhost] at hdown
      cases hdown
    · have hold : (c.moved id result).hosts other = c.hosts other := c.hosts_setHost_of_ne _ hother
      rcases List.mem_append.1 hx with hx | hx
      · exact h.down other disk (hold ▸ hdown) x hx hcaller
      · obtain ⟨call, -, rfl⟩ := List.mem_map.1 hx
        exact absurd hcaller.symm hother
  · rcases List.mem_append.1 hx with hx | hx
    · exact (h.exchange x hx).mono hsub
    · obtain ⟨call, hcall, rfl⟩ := List.mem_map.1 hx
      have hsound := hcalls call hcall
      exact ⟨⟨hsound.target_mem, hsound.target_ne, hsound.vote, hsound.append⟩, nofun, nofun⟩

/-! ## Actions -/

variable [StateMachine μ]

/-- The event that an action is leads to a sound step. -/
theorem Tracks.stepped (h : setup.Tracks prompt facts c) {action : Action} {clock : Clock}
    {event : Event} (hevent : c.event? action = some (id, clock, event)) {server : Server σ μ}
    (hup : c.hosts id = .up server) (hsilent : prompt → server.retiredAreSilent clock event) :
    ∃ facts', facts ⊆ facts' ∧ Server.Stepped (setup.site prompt (c.close action) id) facts' event
      server (server.step clock event) := by
  have hsound := (h.close action).up id server (by cases action <;> exact hup)
  cases action with
  | boot _ _ _ => cases hevent
  | crash _ => cases hevent
  | occur id' clock' event' =>
    simp only [Cluster.event?] at hevent
    split at hevent
    · next hown =>
      cases hevent
      exact hsound.step clock (event.sound_of_isOwn hown _ _) hsilent
    · cases hevent
  | deliver place clock' =>
    simp only [Cluster.event?, Option.map_eq_some_iff] at hevent
    obtain ⟨x, hx, heq⟩ := hevent
    cases heq
    have hcall := (h.exchange x (List.mem_of_getElem? hx)).call
    refine hsound.step clock ?_ hsilent
    cases hrequest : x.call.request with
    | vote request => exact (hcall.vote request hrequest).2
    | append request => exact hcall.append request hrequest
  | conclude place clock' ending =>
    simp only [Cluster.event?, Option.bind_eq_some_iff, Option.map_eq_some_iff] at hevent
    obtain ⟨x, hx, outcome, houtcome, heq⟩ := hevent
    cases heq
    have hexchange := h.exchange x (List.mem_of_getElem? hx)
    obtain ⟨hopen, hvote, happend⟩ := hexchange.outcome houtcome
    cases hrequest : x.call.request with
    | vote request =>
      obtain ⟨result, rfl, hresult⟩ := hvote request hrequest
      -- the outcome is heard once, so one call less is awaited from the callee
      have hcaller := h.up x.caller server hup
      have hasks : x.call.asksFor request.term := by simp [Call.asksFor, hrequest]
      have hpeer : x.call.target ∈ server.peers :=
        (hcaller.fits.mem_peers _).2 ⟨hexchange.call.target_mem, hexchange.call.target_ne⟩
      obtain ⟨hcandidate, -⟩ := hexchange.call.vote request hrequest
      refine ⟨facts, List.Subset.refl _, hcaller.stepVote clock (fun term =>
        (awaited_close_sublist c.exchanges place).subperm) (awaited_close hx hopen hasks).subperm
        hpeer fun reply hreply hgranted => ?_⟩
      obtain ⟨log, hfact⟩ := hresult reply hreply hgranted
      exact ⟨log, hcandidate ▸ hfact⟩
    | append request =>
      obtain ⟨result, rfl, hresult⟩ := happend request hrequest
      exact hsound.step clock (fun reply hreply => hresult reply hreply) hsilent

/-- What an action does to a server that runs before it and after it. -/
structure Acts (setup : Setup σ μ) (prompt : Prop) (facts : List Fact) (c c' : Cluster σ μ) :
    Prop where
  tracks : setup.Tracks prompt facts c'
  raised : ∀ id s s', c.hosts id = .up s → c'.hosts id = .up s' → s.role.leads s'.term →
    Server.Vouched (setup.site prompt c' id) facts s s'
  hands : ∀ id s s', c.hosts id = .up s → c'.hosts id = .up s' → prompt → Server.Hands s s'

/-- An action that leaves alone whoever goes on running. -/
theorem Tracks.acts_of_quiet {c' : Cluster σ μ} (h : setup.Tracks prompt facts c')
    (hquiet : ∀ id s s', c.hosts id = .up s → c'.hosts id = .up s' → s = s') :
    setup.Acts prompt facts c c' := by
  refine ⟨h, fun id s s' hup hup' _ => ?_, fun id s s' hup hup' _ => ?_⟩
  · rw [← hquiet id s s' hup hup']
    exact (Server.Quiet.refl s).vouched
  · rw [← hquiet id s s' hup hup']
    exact (Server.Quiet.refl s).hands

theorem Tracks.perform (h : setup.Tracks prompt facts c) {action : Action}
    (hsilent : prompt → c.retiredAreSilent action) :
    ∃ facts', facts ⊆ facts' ∧ setup.Acts prompt facts' c (c.perform action) := by
  have hidle : ∃ facts', facts ⊆ facts' ∧ setup.Acts prompt facts' c c :=
    ⟨facts, List.Subset.refl _, h.acts_of_quiet fun id s s' hup hup' =>
      Host.up.inj (hup.symm.trans hup')⟩
  unfold Cluster.perform
  cases hevent : c.event? action with
  | none => exact hidle
  | some happens =>
    obtain ⟨id, clock, event⟩ := happens
    simp only
    cases hserver : c.server? id with
    | none => exact hidle
    | some server =>
      have hup := Cluster.hosts_of_server? hserver
      obtain ⟨facts', hsub, hstepped⟩ := h.stepped hevent hup fun hprompt => by
        simpa [Cluster.retiredAreSilent, hevent, hserver] using hsilent hprompt
      have hclosed : (c.close action).hosts = c.hosts := by cases action <;> rfl
      have hmoved := (h.close action).moved (hclosed ▸ hup) hsub hstepped.server hstepped.calls
      have hcases : ∀ other s s', c.hosts other = .up s →
          (((c.close action).moved id (server.step clock event)).answered
            (server.step clock event).answer action).hosts other = .up s' →
          (other = id ∧ s = server ∧ s' = (server.step clock event).server) ∨ s' = s := by
        intro other s s' hs hs'
        rw [Cluster.hosts_step] at hs'
        split at hs'
        · next hother =>
          subst hother
          exact Or.inl ⟨rfl, Host.up.inj (hs.symm.trans hup), (Host.up.inj hs').symm⟩
        · exact Or.inr (Host.up.inj (hs'.symm.trans (hclosed ▸ hs)))
      refine ⟨facts', hsub, hmoved.answered action ?_, fun other s s' hs hs' => ?_,
        fun other s s' hs hs' => ?_⟩
      · -- the answer is that of the target to the request
        rintro place clock' rfl x hx
        simp only [Cluster.event?, Option.map_eq_some_iff] at hevent
        obtain ⟨y, hy, heq⟩ := hevent
        cases heq
        have hlt := (List.getElem?_eq_some_iff.1 hy).1
        have hold : (c.exchanges ++ _)[place]? = some x := hx
        rw [List.getElem?_append_left hlt, hy] at hold
        obtain rfl := Option.some.inj hold
        refine ⟨fun request hrequest => ?_, fun request hrequest => ?_⟩
        · exact hstepped.vote request (by rw [hrequest]; rfl)
        · exact hstepped.append request (by rw [hrequest]; rfl)
      · rcases hcases other s s' hs hs' with ⟨rfl, rfl, rfl⟩ | rfl
        · exact hstepped.raised
        · exact fun _ => (Server.Quiet.refl s').vouched
      · rcases hcases other s s' hs hs' with ⟨rfl, rfl, rfl⟩ | rfl
        · exact hstepped.hands
        · exact fun _ => (Server.Quiet.refl s').hands

/-- One action, whatever it is, leaves a chronicle that bears out the cluster. -/
theorem Tracks.act (h : setup.Tracks prompt facts c) {action : Action}
    (hsilent : prompt → c.retiredAreSilent action) :
    ∃ facts', facts ⊆ facts' ∧ setup.Acts prompt facts' c (setup.act c action) := by
  cases action with
  | boot id clock channels =>
    refine ⟨facts, List.Subset.refl _, (h.boot id clock channels).acts_of_quiet ?_⟩
    intro other s s' hs hs'
    exact Host.up.inj ((boot_hosts_of_up id clock channels hs).symm.trans hs')
  | crash id =>
    refine ⟨facts, List.Subset.refl _, (h.crash id).acts_of_quiet ?_⟩
    intro other s s' hs hs'
    by_cases hother : other = id
    · subst hother
      have hdown : (c.crash other).hosts other = .down _ := c.hosts_setHost other _
      cases hdown.symm.trans hs'
    · have hold : (c.crash id).hosts other = c.hosts other := c.hosts_setHost_of_ne _ hother
      exact Host.up.inj ((hs.symm.trans hold.symm).trans hs')
  | occur id clock event => exact h.perform hsilent
  | deliver place clock => exact h.perform hsilent
  | conclude place clock ending => exact h.perform hsilent

/-! ## Runs -/

/-- The cluster at the next moment. -/
theorem moment_succ (setup : Setup σ μ) (actions : List Action) (time : Nat) :
    setup.moment actions (time + 1) =
      match actions[time]? with
      | some action => setup.act (setup.moment actions time) action
      | none => setup.moment actions time := by
  unfold Setup.moment Setup.run
  rw [List.take_add_one]
  cases actions[time]? with
  | none => rw [Option.toList_none, List.append_nil]
  | some action =>
    rw [List.foldl_append]
    rfl

/-- Every run has a chronicle that grows with it and bears out the cluster at every moment. -/
theorem exists_chronicle (setup : Setup σ μ) (prompt : Prop) (actions : List Action)
    (hsilent : prompt → setup.RetiredAreSilent actions) :
    ∃ facts : Nat → List Fact, (∀ i j, i ≤ j → facts i ⊆ facts j) ∧
      (∀ time, setup.Tracks prompt (facts time) (setup.moment actions time)) ∧
      ∀ time, setup.Acts prompt (facts (time + 1)) (setup.moment actions time)
        (setup.moment actions (time + 1)) := by
  have hstep : ∀ time facts, setup.Tracks prompt facts (setup.moment actions time) →
      ∃ facts', facts ⊆ facts' ∧
        setup.Acts prompt facts' (setup.moment actions time) (setup.moment actions (time + 1)) := by
    intro time facts htracks
    rw [moment_succ]
    cases haction : actions[time]? with
    | none => exact ⟨facts, List.Subset.refl _, htracks.acts_of_quiet fun id s s' hs hs' =>
        Host.up.inj (hs.symm.trans hs')⟩
    | some action => exact htracks.act fun hprompt => hsilent hprompt time action haction
  choose! next hgrows hacts using hstep
  let facts : Nat → List Fact := fun time => Nat.rec [] (fun time facts => next time facts) time
  have htracks : ∀ time, setup.Tracks prompt (facts time) (setup.moment actions time) := by
    intro time
    induction time with
    | zero => exact tracks_initial setup prompt
    | succ time ih => exact (hacts time (facts time) ih).tracks
  refine ⟨facts, fun i j hle => ?_, htracks, fun time => hacts time (facts time) (htracks time)⟩
  induction hle with
  | refl => exact List.Subset.refl _
  | step hle ih => exact List.Subset.trans ih (hgrows _ _ (htracks _))

/-! ## What the chronicle knows of a member -/

section Members

omit [StateMachine μ]

theorem Tracks.elected (h : setup.Tracks prompt facts c) {term : Nat} (hleads : c.leads id term) :
    ∃ log, Fact.election term id log ∈ facts ∧ log <+: c.memory id := by
  obtain ⟨hstanding, hlog⟩ := Cluster.view_of_leads hleads
  rw [← hlog]
  exact (h.possible.leads hstanding).elected

/-- What a member has in memory is on its disk as well. -/
theorem Tracks.memory_prefix_stored (h : setup.Tracks prompt facts c) (id : ServerId) :
    c.memory id <+: c.stored id := by
  unfold Cluster.memory Cluster.stored
  cases hserver : c.server? id with
  | none => exact List.nil_prefix
  | some server =>
    have hup := Cluster.hosts_of_server? hserver
    rw [hup]
    exact (h.up id server hup).durable.coherent.log

theorem Tracks.valid_stored (h : setup.Tracks prompt facts c) (id : ServerId) :
    Valid facts (c.stored id) := by
  unfold Cluster.stored
  cases hhost : c.hosts id with
  | up server => exact (h.up id server hhost).durable.valid
  | down disk =>
    have hvalid := h.possible.logsValid.member id
    unfold Cluster.view at hvalid
    rwa [hhost] at hvalid

theorem Tracks.valid_memory (h : setup.Tracks prompt facts c) (id : ServerId) :
    Valid facts (c.memory id) :=
  h.possible.logsValid.of_prefix (h.valid_stored id) (h.memory_prefix_stored id)

theorem Tracks.valid_logs (h : setup.Tracks prompt facts c) {log : List Entry}
    (hlog : log ∈ c.logs id) : Valid facts log := by
  rcases List.mem_cons.1 hlog with rfl | hlog
  · exact h.valid_memory id
  · rw [List.mem_singleton.1 hlog]
    exact h.valid_stored id

end Members

end Setup

end Quorum
