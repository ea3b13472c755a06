import Quorum.Proofs.Simulation.Passing

set_option autoImplicit false

/-! # What a leader hears of its requests

A leader sends requests to its peers whenever it likes, also to a peer that has not answered an
earlier one, and hears of each of them later. Calls that end at one instant end in any order, and
calls that were sent one after the other can end the other way round. Still there is exactly one
report on each request: at the time of the answer, if it comes before the call is given up, and
otherwise when it is given up. It is tagged with what this request has sent, not with what the
answer is about.

There is one condition: 64 bits hold the index of the last entry of each request. Where they do not,
there is no report if the sum traps, and one with another index if it wraps. -/

namespace Quorum.Simulation

/-! ## What a script says -/

/-- What a peer does with the request that is its `nth` one, counted from 0. -/
def Script.nthAppend (script : Script) (nth : Nat) : ScriptItem :=
  (script.appends[min nth (script.appends.length - 1)]?).getD .silent

/-- What is left of a list of items after some requests. -/
def itemsAfter (items : List ScriptItem) (nth : Nat) : List ScriptItem :=
  items.drop (min nth (items.length - 1))

theorem useItem_itemsAfter (items : List ScriptItem) (nth : Nat) :
    useItem (itemsAfter items nth) =
      ((items[min nth (items.length - 1)]?).getD .silent, itemsAfter items (nth + 1)) := by
  unfold itemsAfter
  cases items with
  | nil => simp [useItem]
  | cons first rest =>
    have hlast : (first :: rest).length - 1 = rest.length := rfl
    rw [hlast]
    by_cases hmore : nth < rest.length
    · have hnth : nth < (first :: rest).length := Nat.lt_succ_of_lt hmore
      have hnext : nth + 1 < (first :: rest).length := Nat.succ_lt_succ hmore
      rw [Nat.min_eq_left (Nat.le_of_lt hmore), Nat.min_eq_left hmore,
        List.drop_eq_getElem_cons hnth, List.drop_eq_getElem_cons hnext,
        List.getElem?_eq_getElem hnth]
      rfl
    · have hend : rest.length < (first :: rest).length := Nat.lt_succ_self _
      have hnone : (first :: rest).drop (rest.length + 1) = [] :=
        List.drop_of_length_le (Nat.le_refl _)
      rw [Nat.min_eq_right (Nat.not_lt.1 hmore), Nat.min_eq_right (by omega),
        List.drop_eq_getElem_cons hend, hnone, List.getElem?_eq_getElem hend]
      rfl

/-! ## Letters and tidings -/

/-- A request that a leader has handed to its courier. -/
structure Letter where
  /-- When it was sent. -/
  time : Nat
  peer : ServerId
  request : AppendRequest
  /-- How many requests were handed over for this peer before. -/
  nth : Nat
  /-- Whether the courier has taken it. -/
  taken : Bool

/-- A report, and when it came. -/
structure Tidings where
  time : Nat
  report : AppendReport

/-- The report on a letter, tagged with what the letter has sent. -/
def Letter.tidings (letter : Letter) (time : Nat) (result : Except CallError AppendReply) :
    Tidings :=
  { time
    report :=
      { peer := letter.peer
        prevIndex := letter.request.prev.index
        lastIndex := letter.request.prev.index + letter.request.entries.length
        result } }

/-- What a leader is to hear on a letter: the answer of the peer, if it comes in time, or else that
    the call was given up. -/
def ScriptItem.tidings (item : ScriptItem) (timeout : Nat) (letter : Letter) : Tidings :=
  let givenUp := letter.tidings (letter.time + timeout) (.error (.timeout letter.peer))
  match item with
  | .silent => givenUp
  | .fail delay failing =>
      if delay < timeout then
        letter.tidings (letter.time + delay) (.error (failing.error letter.peer))
      else givenUp
  | .reply delay rule accepts matched =>
      let standard := if accepts then letter.request.lastIndex else 0
      if delay < timeout then
        letter.tidings (letter.time + delay)
          (.ok ⟨rule.term letter.request.term, accepts, matched.getD standard⟩)
      else givenUp

/-- What the peer does with a letter, by its script at the start. -/
def Courier.item (start : Courier) (letter : Letter) : ScriptItem :=
  (start.wire.script letter.peer).nthAppend letter.nth

/-- What a leader is to hear on a letter, by the scripts at the start. -/
def Courier.tidings (start : Courier) (letter : Letter) : Tidings :=
  (start.item letter).tidings start.timeout letter

/-- What a leader is to hear on all letters that were taken. -/
def Courier.expected (start : Courier) (letters : List Letter) : List Tidings :=
  (letters.filter (·.taken)).map start.tidings

/-! ## Any order of events -/

/-- Let happen what is due of one call. -/
def Courier.land (courier : Courier) (flight : Flight) (others : List Flight) : Courier :=
  { courier with wire := (courier.wire.land flight others).2 }

/-- A request as it is handed to a courier now, after some others. -/
def Courier.letter (courier : Courier) (letters : List Letter) (peer : ServerId)
    (request : AppendRequest) : Letter :=
  { time := courier.wire.now
    peer
    request
    nth := letters.countP (·.peer = peer)
    taken := (courier.send peer request).1 }

/-- What can have been handed to a courier until now, in order, and what can have come back. -/
inductive Courier.Travels (start : Courier) : List Letter → List Tidings → Courier → Prop
  | start : Travels start [] [] start
  /-- The leader sends a request. -/
  | send {letters : List Letter} {heard : List Tidings} {courier : Courier} (peer : ServerId)
      (request : AppendRequest) :
      Travels start letters heard courier →
      Travels start (letters ++ [courier.letter letters peer request]) heard
        (courier.send peer request).2
  /-- A call ends, and none of the others ends before. -/
  | land {letters : List Letter} {heard : List Tidings} {courier : Courier} {flight : Flight}
      {others : List Flight} {outcome : Outcome} :
      Travels start letters heard courier →
      courier.wire.EndsNext flight others outcome →
      Travels start letters
        (heard ++ ((report? (flight.callee, outcome)).map
          (⟨(courier.land flight others).wire.now, ·⟩)).toList)
        (courier.land flight others)
  /-- Time passes, but no further than to where the next call ends. -/
  | wait {letters : List Letter} {heard : List Tidings} {courier : Courier} {limit : Nat} :
      Travels start letters heard courier →
      (∀ flight ∈ courier.wire.flights, limit ≤ flight.dueAt) →
      Travels start letters heard { courier with wire := courier.wire.waitUntil limit }

/-- It is the instant `t`, and all calls have ended that end up to then. -/
def Courier.IsAt (courier : Courier) (t : Nat) : Prop :=
  courier.wire.now = t ∧ ∀ flight ∈ courier.wire.flights, t < flight.dueAt

/-! ## Calls on their way -/

/-- What is going to be heard of a call. -/
def Flight.tidings? (flight : Flight) : Option Tidings :=
  match flight.arrival with
  | .ended flight outcome => (report? (flight.callee, outcome)).map (⟨flight.dueAt, ·⟩)
  | .delivered .. => none

/-- The call by which a letter is carried. -/
def Courier.flight (courier : Courier) (item : ScriptItem) (letter : Letter) : Flight :=
  { caller := courier.leader
    callee := letter.peer
    deadline := letter.time + courier.timeout
    stage :=
      match item.outcome? letter.peer (.append letter.request) with
      | none => .silent (.append letter.request)
      | some (delay, outcome) => .inbound (letter.time + delay) outcome
    since := letter.time }

/-- A call is given up if its end would come too late. -/
theorem Letter.tidings?_inbound {letter : Letter} (hfits : letter.request.lastIndex < wordLimit)
    (caller : ServerId) {timeout delay : Nat} (hdelay : delay ≠ timeout)
    (result : Except CallError AppendReply) :
    Flight.tidings?
        { caller
          callee := letter.peer
          deadline := letter.time + timeout
          stage := .inbound (letter.time + delay) (.append letter.request result)
          since := letter.time } =
      some (if delay < timeout then letter.tidings (letter.time + delay) result
        else letter.tidings (letter.time + timeout) (.error (.timeout letter.peer))) := by
  have hlast := AppendRequest.lastWord_of_lt hfits
  by_cases hlate : delay < timeout
  · have hle : letter.time + delay ≤ letter.time + timeout := by omega
    simp [Flight.tidings?, Flight.arrival, Flight.dueAt, hle, report?, AppendRequest.report, hlast,
      AppendRequest.lastIndex, tidings, hlate]
  · have hle : ¬ letter.time + delay ≤ letter.time + timeout := by omega
    have hge : letter.time + timeout ≤ letter.time + delay := by omega
    simp [Flight.tidings?, Flight.arrival, Flight.dueAt, hle, Nat.min_eq_right hge, report?,
      AppendRequest.report, hlast, AppendRequest.lastIndex, tidings, hlate, Request.failed,
      Stage.request]

/-- A call tells what its item says. -/
theorem Courier.tidings?_flight (courier : Courier) {item : ScriptItem}
    (hdelay : item.delay? ≠ some courier.timeout) {letter : Letter}
    (hfits : letter.request.lastIndex < wordLimit) :
    (courier.flight item letter).tidings? = some (item.tidings courier.timeout letter) := by
  have hlast := AppendRequest.lastWord_of_lt hfits
  cases item with
  | silent =>
    simp only [Flight.tidings?, Flight.arrival, flight, ScriptItem.outcome?, Stage.request,
      Request.failed, report?, AppendRequest.report, hlast]
    rfl
  | fail delay failing =>
    exact Letter.tidings?_inbound hfits courier.leader (fun heq => hdelay (congrArg some heq)) _
  | reply delay rule accepts matched =>
    refine (Letter.tidings?_inbound hfits courier.leader
      (fun heq => hdelay (congrArg some heq)) _).trans ?_
    simp only [ScriptItem.tidings, hlast]

theorem Flight.eq_of_ended {flight other : Flight} {outcome : Outcome}
    (h : flight.arrival = .ended other outcome) : other = flight := by
  unfold arrival at h
  split at h
  · cases h
    rfl
  · split at h <;> cases h
    rfl
  · split at h <;> cases h <;> rfl

/-- A call of which something is heard ends with a report. -/
theorem Flight.exists_ended {flight : Flight} {tidings : Tidings}
    (h : flight.tidings? = some tidings) :
    ∃ outcome report, flight.arrival = .ended flight outcome ∧
      report? (flight.callee, outcome) = some report ∧ tidings = ⟨flight.dueAt, report⟩ := by
  unfold tidings? at h
  split at h
  · next other outcome harrival =>
    obtain rfl := eq_of_ended harrival
    obtain ⟨report, hreport, rfl⟩ := Option.map_eq_some_iff.1 h
    exact ⟨outcome, report, harrival, hreport, rfl⟩
  · cases h

theorem Courier.le_dueAt_flight (courier : Courier) (item : ScriptItem) (letter : Letter) :
    letter.time ≤ (courier.flight item letter).dueAt := by
  unfold flight Flight.dueAt
  cases item <;> simp [ScriptItem.outcome?]

/-! ## The account -/

/-- What holds at all times: each letter that was taken is either reported on as the script says, or
    its call is still on its way and tells the same. -/
structure Courier.Balances (start : Courier) (letters : List Letter) (heard : List Tidings)
    (courier : Courier) : Prop where
  leader : courier.leader = start.leader
  peers : courier.peers = start.peers
  timeout : courier.timeout = start.timeout
  left : ∀ peer ∈ start.peers, (courier.wire.script peer).appends =
    itemsAfter (start.wire.script peer).appends (letters.countP (·.peer = peer))
  taken : ∀ letter ∈ letters, letter.taken = start.peers.contains letter.peer
  perm : ((start.expected letters).map some).Perm
    (heard.map some ++ courier.wire.flights.map Flight.tidings?)
  past : ∀ tidings ∈ heard, tidings.time ≤ courier.wire.now
  ahead : ∀ flight ∈ courier.wire.flights, courier.wire.now ≤ flight.dueAt

section

variable {start courier : Courier} {letters : List Letter} {heard : List Tidings}

theorem Courier.Balances.wait (h : start.Balances letters heard courier) {limit : Nat}
    (hlimit : ∀ flight ∈ courier.wire.flights, limit ≤ flight.dueAt) :
    start.Balances letters heard { courier with wire := courier.wire.waitUntil limit } where
  leader := h.leader
  peers := h.peers
  timeout := h.timeout
  left := h.left
  taken := h.taken
  perm := h.perm
  past tidings hmem := Nat.le_trans (h.past tidings hmem) (Nat.le_max_left ..)
  ahead flight hmem := Nat.max_le.2 ⟨h.ahead flight hmem, hlimit flight hmem⟩

theorem Courier.Balances.exists_ended (h : start.Balances letters heard courier)
    {flight : Flight} (hflight : flight ∈ courier.wire.flights) :
    ∃ outcome report, flight.arrival = .ended flight outcome ∧
      report? (flight.callee, outcome) = some report ∧
      flight.tidings? = some ⟨flight.dueAt, report⟩ := by
  have hmem : flight.tidings? ∈ (start.expected letters).map some :=
    h.perm.mem_iff.2 (List.mem_append_right _ (List.mem_map_of_mem hflight))
  obtain ⟨tidings, -, htidings⟩ := List.mem_map.1 hmem
  obtain ⟨outcome, report, harrival, hreport, heq⟩ := Flight.exists_ended htidings.symm
  exact ⟨outcome, report, harrival, hreport, htidings.symm.trans (congrArg some heq)⟩

theorem Courier.Balances.land (h : start.Balances letters heard courier) {flight : Flight}
    {others : List Flight} {outcome : Outcome}
    (hnext : courier.wire.EndsNext flight others outcome) :
    start.Balances letters
      (heard ++ ((report? (flight.callee, outcome)).map
        (⟨(courier.land flight others).wire.now, ·⟩)).toList)
      (courier.land flight others) := by
  have hmem : flight ∈ courier.wire.flights := hnext.perm.mem_iff.2 (List.mem_cons_self ..)
  have hnow : (courier.land flight others).wire.now = flight.dueAt :=
    (courier.wire.now_land flight others).trans (Nat.max_eq_right (h.ahead flight hmem))
  obtain ⟨outcome, report, harrival, hreport, htidings⟩ := h.exists_ended hmem
  obtain rfl : _ = outcome := by simpa using hnext.arrival.symm.trans harrival
  rw [hreport, hnow]
  exact
    { leader := h.leader
      peers := h.peers
      timeout := h.timeout
      left := fun peer hpeer => by
        rw [← h.left peer hpeer]
        simp only [Courier.land, Wire.script, Wire.scripts_land]
      taken := h.taken
      perm := by
        have hflights := (hnext.perm.map Flight.tidings?).append_left (heard.map some)
        rw [List.map_cons, htidings] at hflights
        refine h.perm.trans (hflights.trans ?_)
        simp only [Courier.land, Wire.flights_land, Option.map_some, Option.toList_some,
          List.map_append, List.map_cons, List.map_nil, List.append_assoc, List.cons_append,
          List.nil_append]
        exact List.Perm.refl _
      past := fun tidings htidings => by
        rw [hnow]
        rcases List.mem_append.1 htidings with hold | hnew
        · exact Nat.le_trans (h.past tidings hold) (h.ahead flight hmem)
        · rw [Option.map_some, Option.toList_some, List.mem_singleton] at hnew
          exact Nat.le_of_eq (congrArg Tidings.time hnew)
      ahead := fun other hother => by
        rw [hnow]
        rw [Courier.land, Wire.flights_land] at hother
        exact hnext.first other hother }

/-- An item of a script is one of its items, or the peer never answers. -/
theorem Script.nthAppend_cases (script : Script) (nth : Nat) :
    script.nthAppend nth = .silent ∨ script.nthAppend nth ∈ script.appends := by
  unfold nthAppend
  cases hitem : script.appends[min nth (script.appends.length - 1)]? with
  | none => exact Or.inl rfl
  | some item => exact Or.inr (List.mem_of_getElem? hitem)

theorem Courier.send_of_mem (courier : Courier) {peer : ServerId} (hpeer : peer ∈ courier.peers)
    {request : AppendRequest} (hfits : request.lastIndex < wordLimit) :
    courier.send peer request =
      (true, { courier with
        wire := courier.wire.sendToScript courier.leader courier.timeout
          ⟨peer, .append request⟩ }) := by
  unfold send
  rw [if_pos (List.contains_iff_mem.2 hpeer), courier.overflow.add?_of_lt hfits]

theorem Courier.send_of_not_mem (courier : Courier) {peer : ServerId}
    (hpeer : peer ∉ courier.peers) (request : AppendRequest) :
    courier.send peer request = (false, courier) := by
  unfold send
  rw [if_neg (mt List.contains_iff_mem.1 hpeer)]

theorem Courier.flights_send (courier : Courier) (letters : List Letter) {peer : ServerId}
    (hpeer : peer ∈ courier.peers) {request : AppendRequest}
    (hfits : request.lastIndex < wordLimit) :
    (courier.send peer request).2.wire.flights = courier.wire.flights ++
      [courier.flight (useItem (courier.wire.script peer).appends).1
        (courier.letter letters peer request)] := by
  rw [courier.send_of_mem hpeer hfits]
  rfl

/-- A peer goes on to its next item. -/
theorem Courier.appends_send (courier : Courier) {peer : ServerId} (hpeer : peer ∈ courier.peers)
    {request : AppendRequest} (hfits : request.lastIndex < wordLimit) (other : ServerId) :
    ((courier.send peer request).2.wire.script other).appends =
      if other = peer then (useItem (courier.wire.script peer).appends).2
      else (courier.wire.script other).appends := by
  rw [courier.send_of_mem hpeer hfits]
  refine (congrArg Script.appends (courier.wire.script_setScript peer other _)).trans ?_
  split <;> rfl

/-- A letter that is taken is put on its way. -/
theorem Courier.Balances.sent (h : start.Balances letters heard courier)
    (hdelay : ∀ peer ∈ start.peers, ∀ item ∈ (start.wire.script peer).appends,
      item.delay? ≠ some start.timeout) {peer : ServerId} (hpeer : peer ∈ start.peers)
    {request : AppendRequest} (hfits : request.lastIndex < wordLimit) :
    ∃ flight, (courier.send peer request).2.wire.flights = courier.wire.flights ++ [flight] ∧
      flight.tidings? = some (start.tidings (courier.letter letters peer request)) ∧
      courier.wire.now ≤ flight.dueAt := by
  have hitem : (useItem (courier.wire.script peer).appends).1 =
      start.item (courier.letter letters peer request) := by
    rw [h.left peer hpeer, useItem_itemsAfter]
    rfl
  have hflight (item : ScriptItem) (letter : Letter) :
      courier.flight item letter = start.flight item letter := by
    simp only [flight, h.leader, h.timeout]
  refine ⟨_, courier.flights_send letters (h.peers ▸ hpeer) hfits, ?_,
    courier.le_dueAt_flight _ (courier.letter letters peer request)⟩
  rw [hflight, hitem]
  refine start.tidings?_flight ?_ hfits
  show ((start.wire.script peer).nthAppend _).delay? ≠ _
  rcases (start.wire.script peer).nthAppend_cases (courier.letter letters peer request).nth with
    hsilent | hmem
  · rw [hsilent]
    exact nofun
  · exact hdelay peer hpeer _ hmem

theorem Courier.Balances.send (h : start.Balances letters heard courier)
    (hdelay : ∀ peer ∈ start.peers, ∀ item ∈ (start.wire.script peer).appends,
      item.delay? ≠ some start.timeout) (peer : ServerId) {request : AppendRequest}
    (hfits : request.lastIndex < wordLimit) :
    start.Balances (letters ++ [courier.letter letters peer request]) heard
      (courier.send peer request).2 := by
  have hcount (other : ServerId) :
      (letters ++ [courier.letter letters peer request]).countP (·.peer = other) =
        letters.countP (·.peer = other) + if other = peer then 1 else 0 := by
    rw [List.countP_append, List.countP_singleton]
    by_cases hother : other = peer
    · simp [letter, hother]
    · simp [letter, hother, Ne.symm hother]
  by_cases hpeer : peer ∈ start.peers
  · have hsend := courier.send_of_mem (h.peers ▸ hpeer) hfits
    obtain ⟨flight, hflights, htidings, hdue⟩ := h.sent hdelay hpeer hfits
    have htaken : (courier.letter letters peer request).taken = true := congrArg Prod.fst hsend
    exact
      { leader := (congrArg (·.2.leader) hsend).trans h.leader
        peers := (congrArg (·.2.peers) hsend).trans h.peers
        timeout := (congrArg (·.2.timeout) hsend).trans h.timeout
        left := fun other hother => by
          rw [hcount, courier.appends_send (h.peers ▸ hpeer) hfits]
          split
          · next heq =>
            rw [heq, h.left peer hpeer, useItem_itemsAfter]
          · exact h.left other hother
        taken := List.forall_mem_append.2 ⟨h.taken, List.forall_mem_singleton.2
          (htaken.trans (List.contains_iff_mem.2 hpeer).symm)⟩
        perm := by
          rw [expected, List.filter_append, List.filter_cons_of_pos htaken, List.filter_nil,
            List.map_append, List.map_append, hflights, List.map_append, ← List.append_assoc,
            List.map_singleton, List.map_singleton, List.map_singleton, htidings]
          exact h.perm.append_right _
        past := by
          rw [hsend]
          exact h.past
        ahead := by
          rw [hflights]
          have hnow : (courier.send peer request).2.wire.now = courier.wire.now :=
            congrArg (·.2.wire.now) hsend
          rw [hnow]
          exact List.forall_mem_append.2 ⟨h.ahead, List.forall_mem_singleton.2 hdue⟩ }
  · have hsend := courier.send_of_not_mem (h.peers ▸ hpeer) request
    have hleft : (courier.letter letters peer request).taken = false := congrArg Prod.fst hsend
    rw [hsend]
    exact
      { h with
        left := fun other hother => by
          have hne : other ≠ peer := fun heq => hpeer (heq ▸ hother)
          rw [hcount, if_neg hne]
          exact h.left other hother
        taken := List.forall_mem_append.2 ⟨h.taken, List.forall_mem_singleton.2
          (hleft.trans (Bool.eq_false_iff.2 (mt List.contains_iff_mem.1 hpeer)).symm)⟩
        perm := by
          rw [expected, List.filter_append, List.filter_cons_of_neg (by rw [hleft]; decide),
            List.filter_nil, List.append_nil]
          exact h.perm }

end

/-! ## What a leader can rely on -/

/-- What holds of all that was handed over and all that has come back. -/
structure Courier.Accounts (start : Courier) (letters : List Letter) (heard : List Tidings)
    (courier : Courier) : Prop where
  /-- A letter is taken if it is for a peer. -/
  taken : ∀ letter ∈ letters, letter.taken = true ↔ letter.peer ∈ start.peers
  /-- Nothing happens of a letter that is not for a peer. -/
  unknown : ∀ peer, peer ∉ start.peers → ∀ request, courier.send peer request = (false, courier)
  /-- What has come so far and what is still to come is one report on each letter that was taken,
      as its script says, and what has come is no earlier than it should be, nor is what is to come
      overdue. -/
  once : ∃ ahead, (start.expected letters).Perm (heard ++ ahead) ∧
    (∀ tidings ∈ heard, tidings.time ≤ courier.wire.now) ∧
    ∀ tidings ∈ ahead, courier.wire.now ≤ tidings.time
  /-- When nothing is due, all has come that is to come up to now. -/
  complete : ∀ t, courier.IsAt t →
    heard.Perm ((start.expected letters).filter (·.time ≤ t))
  /-- Whatever comes is either an answer, at its own time and before the call was given up, or tells
      that the call was given up. -/
  inTime : ∀ tidings ∈ heard, ∃ letter ∈ letters, tidings = start.tidings letter ∧
    ((∃ delay < start.timeout, (start.item letter).delay? = some delay ∧
        tidings.time = letter.time + delay) ∨
      tidings = letter.tidings (letter.time + start.timeout) (.error (.timeout letter.peer)))
  /-- To let time pass is one way for this to go on. -/
  pass : ∀ limit, courier.wire.now ≤ limit → ∃ later : List Tidings,
    start.Travels letters (heard ++ later) (courier.pass limit).2 ∧
      later.map (·.report) = (courier.pass limit).1 ∧ (courier.pass limit).2.IsAt limit

section

variable {start courier : Courier} {letters : List Letter} {heard : List Tidings}

/-- What is still to come is what is going to be heard of the calls on their way. -/
theorem Courier.Balances.perm_ahead (h : start.Balances letters heard courier) :
    (start.expected letters).Perm
      (heard ++ courier.wire.flights.filterMap Flight.tidings?) := by
  have hperm := h.perm.filterMap id
  rwa [List.filterMap_append, List.filterMap_map, List.filterMap_map, List.filterMap_map,
    Function.id_comp, Function.id_comp, List.filterMap_some, List.filterMap_some] at hperm

theorem Flight.exists_dueAt {flights : List Flight} {tidings : Tidings}
    (htidings : tidings ∈ flights.filterMap tidings?) :
    ∃ flight ∈ flights, tidings.time = flight.dueAt := by
  obtain ⟨flight, hflight, heq⟩ := List.mem_filterMap.1 htidings
  obtain ⟨outcome, report, -, -, rfl⟩ := exists_ended heq
  exact ⟨flight, hflight, rfl⟩

theorem Courier.Balances.complete (h : start.Balances letters heard courier) {t : Nat}
    (ht : courier.IsAt t) : heard.Perm ((start.expected letters).filter (·.time ≤ t)) := by
  obtain ⟨rfl, hleft⟩ := ht
  have hall : heard.filter (·.time ≤ courier.wire.now) = heard :=
    List.filter_eq_self.2 fun tidings hmem => decide_eq_true (h.past tidings hmem)
  have hnone : (courier.wire.flights.filterMap Flight.tidings?).filter
      (·.time ≤ courier.wire.now) = [] := by
    refine List.filter_eq_nil_iff.2 fun tidings hmem => ?_
    obtain ⟨flight, hflight, htime⟩ := Flight.exists_dueAt hmem
    simpa [htime] using hleft flight hflight
  have hfilter := h.perm_ahead.filter (·.time ≤ courier.wire.now)
  rw [List.filter_append, hall, hnone, List.append_nil] at hfilter
  exact hfilter.symm

/-- An answer comes at its own time, or the call is given up. -/
theorem ScriptItem.tidings_cases (item : ScriptItem) (timeout : Nat) (letter : Letter) :
    (∃ delay < timeout, item.delay? = some delay ∧
        (item.tidings timeout letter).time = letter.time + delay) ∨
      item.tidings timeout letter =
        letter.tidings (letter.time + timeout) (.error (.timeout letter.peer)) := by
  cases item with
  | silent => exact Or.inr rfl
  | fail delay failing =>
    by_cases hlate : delay < timeout
    · exact Or.inl ⟨delay, hlate, rfl, by simp only [tidings, if_pos hlate, Letter.tidings]⟩
    · exact Or.inr (if_neg hlate)
  | reply delay rule accepts matched =>
    by_cases hlate : delay < timeout
    · exact Or.inl ⟨delay, hlate, rfl, by simp only [tidings, if_pos hlate, Letter.tidings]⟩
    · exact Or.inr (if_neg hlate)

theorem Courier.Balances.inTime (h : start.Balances letters heard courier) {tidings : Tidings}
    (htidings : tidings ∈ heard) :
    ∃ letter ∈ letters, tidings = start.tidings letter ∧
      ((∃ delay < start.timeout, (start.item letter).delay? = some delay ∧
          tidings.time = letter.time + delay) ∨
        tidings =
          letter.tidings (letter.time + start.timeout) (.error (.timeout letter.peer))) := by
  obtain ⟨letter, hletter, rfl⟩ :=
    List.mem_map.1 (h.perm_ahead.mem_iff.2 (List.mem_append_left _ htidings))
  exact ⟨letter, List.mem_of_mem_filter hletter, rfl, (start.item letter).tidings_cases _ letter⟩

/-- To let time pass is to let calls end. -/
theorem Courier.Travels.pass (h : start.Travels letters heard courier) {limit : Nat}
    (hnow : courier.wire.now ≤ limit)
    (hends : ∀ flight ∈ courier.wire.flights, ∃ outcome, flight.arrival = .ended flight outcome) :
    ∃ later : List Tidings, start.Travels letters (heard ++ later) (courier.pass limit).2 ∧
      later.map (·.report) = (courier.pass limit).1 ∧ (courier.pass limit).2.IsAt limit := by
  refine endings_induction
    (motive := fun wire ended last => ∀ heard,
      start.Travels letters heard { courier with wire } →
      ∃ later : List Tidings,
        start.Travels letters (heard ++ later) { courier with wire := last } ∧
          later.map (·.report) = ended.filterMap report? ∧
          IsAt { courier with wire := last } limit)
    ?_ ?_ courier.wire hnow hends heard h
  · intro wire hwire hflights heard htravels
    refine ⟨[], ?_, rfl, Nat.max_eq_right hwire, hflights⟩
    rw [List.append_nil]
    exact htravels.wait fun flight hmem => Nat.le_of_lt (hflights flight hmem)
  · intro wire flight others outcome ended last hnext hrest heard htravels
    obtain ⟨later, hlater, hreports, hat⟩ := hrest _ (htravels.land hnext)
    refine ⟨_, List.append_assoc .. ▸ hlater, ?_, hat⟩
    rw [List.map_append, hreports]
    cases hreport : report? (flight.callee, outcome) with
    | none => rw [List.filterMap_cons_none hreport]; rfl
    | some report => rw [List.filterMap_cons_some hreport]; rfl

end

end Quorum.Simulation
