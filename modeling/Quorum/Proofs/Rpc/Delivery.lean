import Quorum.Proofs.Rpc.Links

set_option autoImplicit false

/-! # What comes of a call

A caller looks up the handler of its target when it sends, and only then gives way to whatever else
is going on. So by the time the handler has its turn, links may have been cut, the handler may have
been replaced, and other calls may have been sent and served; and while it runs the network may
change again, by what the handler does itself or by anybody else. Whether the caller hears the
answer depends on the links at the end.

`Traffic` is a network on which any number of calls is under way at once. What has been done to the
network is kept beside it as a history, and so is each run of a handler. -/

namespace Quorum

/-! ## Calls on a network -/

/-- Where a call is. -/
inductive Passage (η ρ : Type) where
  /-- Its handler was found and has not run yet. -/
  | waiting (handler : η)
  /-- The caller has its result. -/
  | answered (result : Except CallError ρ)

/-- A call that was sent over a network. -/
structure NetworkCall (η κ ρ : Type) where
  sender : ServerId
  target : ServerId
  request : κ
  passage : Passage η ρ

/-- A run of a handler. -/
structure Service (η κ ρ : Type) where
  /-- The number of the call. -/
  call : Nat
  handler : η
  request : κ
  reply : Except EngineError ρ
  /-- All that had been done to the network when the run was over. -/
  history : List (NetworkChange η)

/-- A network, calls on it, and the world that its handlers act upon. -/
structure Traffic (η κ ρ ω : Type) where
  network : Network η
  /-- All that was done to the network. -/
  history : List (NetworkChange η)
  world : ω
  /-- All calls in the order in which they were sent, which numbers them. -/
  calls : List (NetworkCall η κ ρ)
  /-- All runs of handlers in their order. -/
  services : List (Service η κ ρ)

/-- Something that happens on a network. -/
inductive Traffic.Move (η κ : Type) where
  | change (change : NetworkChange η)
  | send (sender target : ServerId) (request : κ)
  /-- The handler of a call has its turn; on the way the given changes are made. -/
  | serve (call : Nat) (changes : List (NetworkChange η))

variable {η κ ρ ω : Type}

/-- What the caller sees of a reply if the link is up, and if it is not. -/
def answerOver (linked : Prop) [Decidable linked] (target : ServerId)
    (reply : Except EngineError ρ) : Except CallError ρ :=
  if linked then reply.mapError fun e => .rejected target e.message
  else .error (.unreachable target)

/-- A handler is found if the link is up and somebody takes the requests for the target. -/
theorem Network.route_after (history : List (NetworkChange η)) (sender target : ServerId) :
    ((empty.after history).route sender target =
        match handlerAfter? history target with
        | some handler => .ok handler
        | none => .error (.unreachable target)) ∧ Linked history sender target ∨
      (empty.after history).route sender target = .error (.unreachable target) ∧
        ¬ Linked history sender target := by
  unfold Network.route
  rw [handler?_after]
  by_cases hlinked : Linked history sender target
  · rw [if_pos ((connected_after_iff history sender target).2 hlinked)]
    exact Or.inl ⟨rfl, hlinked⟩
  · rw [if_neg (mt (connected_after_iff history sender target).1 hlinked)]
    exact Or.inr ⟨rfl, hlinked⟩

theorem Network.returnReply_after (history : List (NetworkChange η)) (sender target : ServerId)
    (reply : Except EngineError ρ) :
    (empty.after history).returnReply sender target reply =
      answerOver (Linked history sender target) target reply := by
  unfold Network.returnReply answerOver
  by_cases hlinked : Linked history sender target
  · rw [if_pos ((connected_after_iff history target sender).2 hlinked.symm), if_pos hlinked]
    cases reply <;> rfl
  · rw [if_neg fun hconnected =>
      hlinked ((connected_after_iff history target sender).1 hconnected).symm, if_neg hlinked]

namespace Traffic

/-- A network on which nothing has happened yet. -/
def initial (world : ω) : Traffic η κ ρ ω := ⟨.empty, [], world, [], []⟩

/-- The result of a call, once the caller has it. -/
def result? (traffic : Traffic η κ ρ ω) (call : Nat) : Option (Except CallError ρ) :=
  match traffic.calls[call]? with
  | some ⟨_, _, _, .answered result⟩ => some result
  | _ => none

/-- Send a call: its handler is looked up at once. -/
def send (traffic : Traffic η κ ρ ω) (sender target : ServerId) (request : κ) :
    Traffic η κ ρ ω :=
  let passage :=
    match traffic.network.route sender target with
    | .ok handler => .waiting handler
    | .error e => .answered (.error e)
  { traffic with calls := traffic.calls ++ [⟨sender, target, request, passage⟩] }

/-- What handlers do: with a request, in a world, they give a reply and leave another world. -/
abbrev Handling (η κ ρ ω : Type) := η → κ → ω → Except EngineError ρ × ω

variable (handle : Handling η κ ρ ω)

/-- Let the handler of a call run. -/
def serve (traffic : Traffic η κ ρ ω) (number : Nat) (call : NetworkCall η κ ρ) (handler : η)
    (changes : List (NetworkChange η)) : Traffic η κ ρ ω :=
  let (reply, world) := handle handler call.request traffic.world
  let network := traffic.network.after changes
  let history := traffic.history ++ changes
  let result := network.returnReply call.sender call.target reply
  { network
    history
    world
    calls := traffic.calls.set number { call with passage := .answered result }
    services := traffic.services ++ [⟨number, handler, call.request, reply, history⟩] }

/-- Let one thing happen. A call that is not waiting has no handler to run. -/
def step (traffic : Traffic η κ ρ ω) : Move η κ → Traffic η κ ρ ω
  | .change change =>
      { traffic with
        network := traffic.network.change change
        history := traffic.history ++ [change] }
  | .send sender target request => traffic.send sender target request
  | .serve number changes =>
      match traffic.calls[number]? with
      | some call =>
          match call.passage with
          | .waiting handler => traffic.serve handle number call handler changes
          | .answered _ => traffic
      | none => traffic

/-- Let one thing happen after the other. -/
def run (traffic : Traffic η κ ρ ω) (moves : List (Move η κ)) : Traffic η κ ρ ω :=
  moves.foldl (step handle) traffic

/-- What some runs of handlers make of a world. -/
def effects (world : ω) (services : List (Service η κ ρ)) : ω :=
  services.foldl (fun world service => (handle service.handler service.request world).2) world

/-- A step either lets the handler of a waiting call run or leaves all runs as they are. -/
theorem step_serve_cases (traffic : Traffic η κ ρ ω) (number : Nat)
    (changes : List (NetworkChange η)) :
    (∃ call handler, traffic.calls[number]? = some call ∧ call.passage = .waiting handler ∧
        traffic.step handle (.serve number changes) =
          traffic.serve handle number call handler changes) ∨
      traffic.step handle (.serve number changes) = traffic := by
  cases hcall : traffic.calls[number]? with
  | none => exact Or.inr (by simp only [step, hcall])
  | some call =>
    cases hpassage : call.passage with
    | waiting handler =>
      exact Or.inl ⟨call, handler, rfl, hpassage, by simp only [step, hcall, hpassage]⟩
    | answered result => exact Or.inr (by simp only [step, hcall, hpassage])

/-! ## All calls together -/

/-- What holds at all times: the network is what its history makes of it, only calls that were sent
    are served, the world is what the runs of handlers have made of it, and each of them has given
    its own reply. -/
structure Sound (world : ω) (traffic : Traffic η κ ρ ω) : Prop where
  network : traffic.network = Network.empty.after traffic.history
  numbers : ∀ service ∈ traffic.services, service.call < traffic.calls.length
  acted : traffic.world = effects handle world traffic.services
  replies : ∀ earlier service later, traffic.services = earlier ++ service :: later →
    service.reply =
      (handle service.handler service.request (effects handle world earlier)).1

variable {handle}

theorem effects_concat (world : ω) (services : List (Service η κ ρ)) (service : Service η κ ρ) :
    effects handle world (services ++ [service]) =
      (handle service.handler service.request (effects handle world services)).2 :=
  List.foldl_concat ..

theorem sound_initial (world : ω) : (initial world : Traffic η κ ρ ω).Sound handle world where
  network := rfl
  numbers := List.forall_mem_nil _
  acted := rfl
  replies earlier service later h := by
    cases earlier <;> cases h

theorem Sound.network_after {world : ω} {traffic : Traffic η κ ρ ω}
    (h : traffic.Sound handle world) (changes : List (NetworkChange η)) :
    traffic.network.after changes = Network.empty.after (traffic.history ++ changes) := by
  rw [h.network]
  exact List.foldl_append.symm

theorem Sound.serve {world : ω} {traffic : Traffic η κ ρ ω} (h : traffic.Sound handle world)
    {number : Nat} (hnumber : number < traffic.calls.length) (call : NetworkCall η κ ρ)
    (handler : η) (changes : List (NetworkChange η)) :
    (traffic.serve handle number call handler changes).Sound handle world where
  network := h.network_after changes
  numbers := by
    intro service hservice
    show service.call < (traffic.calls.set _ _).length
    rw [List.length_set]
    rcases List.mem_append.1 hservice with hold | hnew
    · exact h.numbers service hold
    · rw [List.mem_singleton.1 hnew]
      exact hnumber
  acted := by
    show (handle handler call.request traffic.world).2 = effects handle world (traffic.services ++ _)
    rw [effects_concat, h.acted]
  replies := by
    intro earlier service later hservices
    rcases List.eq_nil_or_concat later with rfl | ⟨later, last, rfl⟩
    · obtain ⟨rfl, hlast⟩ := List.append_inj' hservices rfl
      obtain rfl := (List.cons.inj hlast).1
      rw [← h.acted]
    · rw [List.concat_eq_append, ← List.cons_append, ← List.append_assoc] at hservices
      exact h.replies earlier service later (List.append_inj' hservices rfl).1

theorem Sound.step {world : ω} {traffic : Traffic η κ ρ ω} (h : traffic.Sound handle world)
    (move : Move η κ) : (traffic.step handle move).Sound handle world := by
  cases move with
  | change change =>
    exact { h with network := h.network_after [change] }
  | send sender target request =>
    refine { h with numbers := fun service hservice => ?_ }
    show service.call < (traffic.calls ++ [_]).length
    rw [List.length_append]
    exact Nat.lt_add_right _ (h.numbers service hservice)
  | serve number changes =>
    rcases traffic.step_serve_cases handle number changes with
      ⟨call, handler, hcall, -, heq⟩ | heq
    · rw [heq]
      exact h.serve (List.getElem?_eq_some_iff.1 hcall).1 call handler changes
    · rw [heq]
      exact h

theorem Sound.run {world : ω} {traffic : Traffic η κ ρ ω} (h : traffic.Sound handle world)
    (moves : List (Move η κ)) : (traffic.run handle moves).Sound handle world := by
  induction moves generalizing traffic with
  | nil => exact h
  | cons move moves ih => exact ih (h.step move)

/-! ## One call -/

/-- What has become of the call that was sent from `start`. -/
inductive Course (start : Traffic η κ ρ ω) (sender target : ServerId) (request : κ)
    (traffic : Traffic η κ ρ ω) : Prop where
  /-- There was no link or no handler. -/
  | refused
      (lacks : ¬ (Linked start.history sender target ∧
        (handlerAfter? start.history target).isSome))
      (call : traffic.calls[start.calls.length]? =
        some ⟨sender, target, request, .answered (.error (.unreachable target))⟩)
      (unserved : ∀ service ∈ traffic.services, service.call ≠ start.calls.length)
  /-- Its handler was found. -/
  | waits {handler : η}
      (linked : Linked start.history sender target)
      (found : handlerAfter? start.history target = some handler)
      (call : traffic.calls[start.calls.length]? =
        some ⟨sender, target, request, .waiting handler⟩)
      (unserved : ∀ service ∈ traffic.services, service.call ≠ start.calls.length)
  /-- Its handler has run. -/
  | served (earlier later : List (Service η κ ρ)) (service : Service η κ ρ)
      (linked : Linked start.history sender target)
      (found : handlerAfter? start.history target = some service.handler)
      (services : traffic.services = earlier ++ service :: later)
      (number : service.call = start.calls.length)
      (asked : service.request = request)
      (others : ∀ other ∈ earlier ++ later, other.call ≠ start.calls.length)
      (call : traffic.calls[start.calls.length]? =
        some ⟨sender, target, request,
          .answered (answerOver (Linked service.history sender target) target service.reply)⟩)

section

variable {world : ω} {start traffic : Traffic η κ ρ ω} {sender target : ServerId} {request : κ}

/-- A call that is sent is refused or waits. -/
theorem Sound.course_send (h : start.Sound handle world) (sender target : ServerId)
    (request : κ) : start.Course sender target request (start.send sender target request) := by
  have hunserved : ∀ service ∈ start.services, service.call ≠ start.calls.length :=
    fun service hservice => Nat.ne_of_lt (h.numbers service hservice)
  have hcall (passage : Passage η ρ)
      (hpassage : (match start.network.route sender target with
        | .ok handler => .waiting handler
        | .error e => .answered (.error e)) = passage) :
      (start.send sender target request).calls[start.calls.length]? =
        some ⟨sender, target, request, passage⟩ := by
    rw [← hpassage]
    exact List.getElem?_concat_length
  rw [h.network] at hcall
  rcases Network.route_after start.history sender target with ⟨hroute, hlinked⟩ | ⟨hroute, hcut⟩
  · rw [hroute] at hcall
    cases hfound : handlerAfter? start.history target with
    | some handler =>
      rw [hfound] at hcall
      exact .waits hlinked hfound (hcall _ rfl) hunserved
    | none =>
      rw [hfound] at hcall
      exact .refused (fun hneeds => by simp [hfound] at hneeds) (hcall _ rfl) hunserved
  · rw [hroute] at hcall
    exact .refused (fun hneeds => hcut hneeds.1) (hcall _ rfl) hunserved

/-- What becomes of a call concerns only what is recorded of it and of the runs for it. -/
theorem Course.congr (h : start.Course sender target request traffic)
    {later : Traffic η κ ρ ω} (hcalls : later.calls[start.calls.length]? =
      traffic.calls[start.calls.length]?)
    {services : List (Service η κ ρ)} (hservices : later.services = traffic.services ++ services)
    (hother : ∀ service ∈ services, service.call ≠ start.calls.length) :
    start.Course sender target request later := by
  have hunserved (hnone : ∀ service ∈ traffic.services, service.call ≠ start.calls.length) :
      ∀ service ∈ later.services, service.call ≠ start.calls.length := by
    rw [hservices]
    exact fun service hservice =>
      (List.mem_append.1 hservice).elim (hnone service) (hother service)
  cases h with
  | refused lacks call unserved => exact .refused lacks (hcalls.trans call) (hunserved unserved)
  | waits linked found call unserved =>
    exact .waits linked found (hcalls.trans call) (hunserved unserved)
  | served earlier more service linked found hold number asked others call =>
    refine .served earlier (more ++ services) service linked found ?_ number asked ?_
      (hcalls.trans call)
    · rw [hservices, hold, List.append_assoc, List.cons_append]
    · intro other hmem
      rw [← List.append_assoc] at hmem
      exact (List.mem_append.1 hmem).elim (others other) (hother other)

theorem Course.length_lt (h : start.Course sender target request traffic) :
    start.calls.length < traffic.calls.length := by
  cases h with
  | refused lacks call unserved => exact (List.getElem?_eq_some_iff.1 call).1
  | waits linked found call unserved => exact (List.getElem?_eq_some_iff.1 call).1
  | served earlier later service linked found services number asked others call =>
    exact (List.getElem?_eq_some_iff.1 call).1

/-- A waiting call whose handler has run is over. -/
theorem Course.serve (h : start.Course sender target request traffic)
    (hsound : traffic.Sound handle world) {number : Nat} {call : NetworkCall η κ ρ} {handler : η}
    (hcall : traffic.calls[number]? = some call) (hwaits : call.passage = .waiting handler)
    (changes : List (NetworkChange η)) :
    start.Course sender target request
      (traffic.serve handle number call handler changes) := by
  by_cases hnumber : number = start.calls.length
  · subst hnumber
    cases h with
    | refused lacks hover unserved =>
      obtain rfl := Option.some.inj (hcall.symm.trans hover)
      cases hwaits
    | served earlier later service linked found services number asked others hover =>
      obtain rfl := Option.some.inj (hcall.symm.trans hover)
      cases hwaits
    | waits linked found hwaiting unserved =>
      obtain rfl := Option.some.inj (hcall.symm.trans hwaiting)
      obtain rfl := Passage.waiting.inj hwaits
      refine .served traffic.services [] _ linked found rfl rfl rfl ?_ ?_
      · rw [List.append_nil]
        exact unserved
      · have hlength := (List.getElem?_eq_some_iff.1 hwaiting).1
        simp only [Traffic.serve, List.getElem?_set_self hlength, hsound.network_after,
          Network.returnReply_after]
  · refine h.congr ?_ rfl ?_
    · exact List.getElem?_set_ne hnumber
    · intro service hservice
      rw [List.mem_singleton.1 hservice]
      exact hnumber

theorem Course.step (h : start.Course sender target request traffic)
    (hsound : traffic.Sound handle world) (move : Move η κ) :
    start.Course sender target request (traffic.step handle move) := by
  cases move with
  | change change => exact h.congr rfl (List.append_nil _).symm (List.forall_mem_nil _)
  | send sender' target' request' =>
    refine h.congr ?_ (List.append_nil _).symm (List.forall_mem_nil _)
    exact List.getElem?_append_left h.length_lt
  | serve number changes =>
    rcases traffic.step_serve_cases handle number changes with
      ⟨call, handler, hcall, hwaits, heq⟩ | heq
    · rw [heq]
      exact h.serve hsound hcall hwaits changes
    · rw [heq]
      exact h

theorem Course.run (h : start.Course sender target request traffic)
    (hsound : traffic.Sound handle world) (moves : List (Move η κ)) :
    start.Course sender target request (traffic.run handle moves) := by
  induction moves generalizing traffic with
  | nil => exact h
  | cons move moves ih => exact ih (h.step hsound move) (hsound.step move)

end

/-! ## What callers can rely on -/

/-- What holds of the call that was sent from `start`, whatever has happened since. -/
structure Settles (handle : Handling η κ ρ ω) (start : Traffic η κ ρ ω)
    (sender target : ServerId) (request : κ) (traffic : Traffic η κ ρ ω) : Prop where
  /-- A handler is called at most once. -/
  once : traffic.services.countP (·.call = start.calls.length) ≤ 1
  /-- It is the handler that was there when the call was sent, and the link was up then. -/
  invoked : ∀ service ∈ traffic.services, service.call = start.calls.length →
    Linked start.history sender target ∧
      handlerAfter? start.history target = some service.handler ∧ service.request = request
  /-- The caller has its answer if the link is up when it has run. -/
  answered : ∀ service ∈ traffic.services, service.call = start.calls.length →
    traffic.result? start.calls.length =
      some (answerOver (Linked service.history sender target) target service.reply)
  /-- Where no handler was called, the target is unreachable, unless the call still waits. -/
  unanswered : (∀ service ∈ traffic.services, service.call ≠ start.calls.length) →
    traffic.result? start.calls.length =
      if Linked start.history sender target ∧ (handlerAfter? start.history target).isSome then none
      else some (.error (.unreachable target))
  /-- A call that waits is served when the handler has its turn. -/
  turn : traffic.result? start.calls.length = none → ∀ changes, ∃ service,
    (traffic.step handle (.serve start.calls.length changes)).services =
        traffic.services ++ [service] ∧
      service.call = start.calls.length

theorem Course.settles {start traffic : Traffic η κ ρ ω} {sender target : ServerId} {request : κ}
    (h : start.Course sender target request traffic) :
    start.Settles handle sender target request traffic := by
  cases h with
  | refused lacks call unserved =>
    have hresult : traffic.result? start.calls.length =
        some (.error (.unreachable target)) := by
      simp only [result?, call]
    exact
      { once := by
          rw [List.countP_eq_zero.2 (by simpa using unserved)]
          exact Nat.zero_le _
        invoked := fun service hservice hnumber => absurd hnumber (unserved service hservice)
        answered := fun service hservice hnumber => absurd hnumber (unserved service hservice)
        unanswered := fun _ => by rw [hresult, if_neg lacks]
        turn := fun hnone => by
          rw [hresult] at hnone
          cases hnone }
  | @waits handler linked found call unserved =>
    have hresult : traffic.result? start.calls.length = none := by
      simp only [result?, call]
    exact
      { once := by
          rw [List.countP_eq_zero.2 (by simpa using unserved)]
          exact Nat.zero_le _
        invoked := fun service hservice hnumber => absurd hnumber (unserved service hservice)
        answered := fun service hservice hnumber => absurd hnumber (unserved service hservice)
        unanswered := fun _ => by
          rw [hresult, if_pos ⟨linked, by rw [found]; rfl⟩]
        turn := fun _ changes => by
          have hstep : traffic.step handle (.serve start.calls.length changes) =
              traffic.serve handle start.calls.length
                ⟨sender, target, request, .waiting handler⟩ handler changes := by
            simp only [Traffic.step, call]
          rw [hstep]
          exact ⟨_, rfl, rfl⟩ }
  | served earlier later service linked found services number asked others call =>
    have hresult : traffic.result? start.calls.length =
        some (answerOver (Linked service.history sender target) target service.reply) := by
      simp only [result?, call]
    have honly : ∀ other ∈ traffic.services, other.call = start.calls.length → other = service := by
      intro other hother hnumber
      rw [services] at hother
      rcases List.mem_append.1 hother with hbefore | hafter
      · exact absurd hnumber (others other (List.mem_append_left _ hbefore))
      · rcases List.mem_cons.1 hafter with rfl | hafter
        · rfl
        · exact absurd hnumber (others other (List.mem_append_right _ hafter))
    exact
      { once := by
          have hothers : (earlier ++ later).countP (·.call = start.calls.length) = 0 :=
            List.countP_eq_zero.2 (by simpa using others)
          rw [List.countP_append] at hothers
          rw [services, List.countP_append, List.countP_cons]
          split <;> omega
        invoked := fun other hother hnumber => by
          obtain rfl := honly other hother hnumber
          exact ⟨linked, found, asked⟩
        answered := fun other hother hnumber => by
          obtain rfl := honly other hother hnumber
          exact hresult
        unanswered := fun hnone => by
          have hmem : service ∈ traffic.services := by
            rw [services]
            exact List.mem_append_right _ (List.mem_cons_self ..)
          exact absurd number (hnone service hmem)
        turn := fun hnone => by
          rw [hresult] at hnone
          cases hnone }

/-- A call whose handler has its turn at once goes as a single call over the network does. -/
theorem call_at_once (traffic : Traffic η κ ρ ω) (sender target : ServerId) (request : κ)
    (changes : List (NetworkChange η)) :
    let next := traffic.run handle [.send sender target request, .serve traffic.calls.length changes]
    let delivery := traffic.network.call sender target fun handler network =>
      let (reply, world) := handle handler request traffic.world
      ⟨reply, world, network.after changes⟩
    next.result? traffic.calls.length = some delivery.result ∧
      next.world = delivery.effect.getD traffic.world ∧ next.network = delivery.network := by
  have hsent (passage : Passage η ρ) :
      (traffic.calls ++ [⟨sender, target, request, passage⟩])[traffic.calls.length]? =
        some ⟨sender, target, request, passage⟩ :=
    List.getElem?_concat_length
  cases hroute : traffic.network.route sender target with
  | error e =>
    simp only [run, List.foldl_cons, List.foldl_nil, step, send, hroute, hsent, Network.call,
      result?, Option.getD_none, and_self]
  | ok handler =>
    have hlength := (List.getElem?_eq_some_iff.1 (hsent (.waiting handler))).1
    simp only [run, List.foldl_cons, List.foldl_nil, step, send, hroute, hsent, Network.call,
      result?, serve, List.getElem?_set_self hlength, Option.getD_some, and_self]

/-- Whatever has been done to a network and whatever calls are under way on it, its links are the
    same in both directions, and two members are linked if neither is isolated and the link between
    them is not cut.

    A call that is then sent calls a handler at most once, and only the one that was there when it
    was sent, over a link that was up then. The caller gets the answer of the handler if the handler
    was called and the link is up when it has run; otherwise it hears that the target is
    unreachable. Either way, what the handlers have done stays done. -/
theorem links_and_answers (handle : Handling η κ ρ ω) (world : ω) (before after : List (Move η κ))
    (sender target : ServerId) (request : κ) :
    let start : Traffic η κ ρ ω := (initial world).run handle before
    let final := start.run handle (.send sender target request :: after)
    (∀ a b, start.network.links.connected a b = start.network.links.connected b a ∧
        (start.network.links.connected a b = true ↔ Linked start.history a b)) ∧
      start.Settles handle sender target request final ∧ final.Sound handle world ∧
      ∀ changes,
        let next := start.run handle
          [.send sender target request, .serve start.calls.length changes]
        let delivery := start.network.call sender target fun handler network =>
          let (reply, world) := handle handler request start.world
          ⟨reply, world, network.after changes⟩
        next.result? start.calls.length = some delivery.result ∧
          next.world = delivery.effect.getD start.world ∧ next.network = delivery.network := by
  intro start final
  have hstart : start.Sound handle world := (sound_initial world).run before
  have hsent : (start.send sender target request).Sound handle world :=
    hstart.step (.send sender target request)
  have hcourse : start.Course sender target request final :=
    (hstart.course_send sender target request).run hsent after
  refine ⟨fun a b => ?_, hcourse.settles, hsent.run after, fun changes => ?_⟩
  · rw [hstart.network]
    exact ⟨Network.connected_after_comm start.history a b,
      Network.connected_after_iff start.history a b⟩
  · exact start.call_at_once sender target request changes

end Traffic

end Quorum
