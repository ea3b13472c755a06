import Quorum.Configuration
import Quorum.Proofs.Address
import Quorum.Proofs.Message

set_option autoImplicit false

/-! # What is written is read back

Messages go from one server to another, and a configuration is read by the next run of a server: in
both cases what was written as a text has to be read as the same thing. Of a configuration this
holds whenever it was read from any text at all, be it with fields left out or unknown, or as a list
of values without names: it is written with all its fields and their names. -/

namespace Quorum

/-! ## Parts of a configuration -/

/-- Both ends of an interval have at most 64 bits. -/
structure Interval.Fits (interval : Interval) : Prop where
  minimum : interval.minimum < wordLimit
  maximum : interval.maximum < wordLimit

theorem Interval.plain_toJson (interval : Interval) : interval.toJson.Plain := by
  refine Json.plain_ofFields fun field hfield => ?_
  simp only [List.mem_cons, List.not_mem_nil, or_false] at hfield
  obtain rfl | rfl := hfield <;> exact .natural _

theorem Interval.ofJson?_toJson {interval : Interval} (h : interval.Fits) :
    Interval.ofJson? interval.toJson = some interval := by
  have hfields : interval.toJson.fields? ["minimum_ms", "maximum_ms"] =
      some ⟨false, [some (.natural interval.minimum), some (.natural interval.maximum)]⟩ :=
    Json.fields?_ofFields (by simp)
  simp [Interval.ofJson?, hfields, Json.word?_natural h.minimum, Json.word?_natural h.maximum]

theorem Interval.fits_of_ofJson? {json : Json} {interval : Interval}
    (h : Interval.ofJson? json = some interval) : interval.Fits := by
  unfold Interval.ofJson? at h
  split at h
  · obtain ⟨minimum, hminimum, h⟩ := Option.bind_eq_some_iff.1 h
    obtain ⟨maximum, hmaximum, h⟩ := Option.bind_eq_some_iff.1 h
    obtain rfl := Option.some.inj h
    exact ⟨Json.lt_of_word? hminimum, Json.lt_of_word? hmaximum⟩
  · cases h

/-- The identity of a member has at most 64 bits, and its address is one that can be read. -/
structure Member.Fits (member : Member) : Prop where
  id : member.id.number < wordLimit
  address : member.address.IsProper

theorem Member.plain_toJson (member : Member) : member.toJson.Plain := by
  refine Json.plain_ofFields fun field hfield => ?_
  simp only [List.mem_cons, List.not_mem_nil, or_false] at hfield
  obtain rfl | rfl := hfield
  · exact .natural _
  · exact .string (Json.proper_codesOf _)

theorem Member.ofJson?_toJson {member : Member} (h : member.Fits) :
    Member.ofJson? member.toJson = some member := by
  have hfields : member.toJson.fields? ["id", "address"] =
      some ⟨false, [some (.natural member.id.number), some (.ofString member.address.toText)]⟩ :=
    Json.fields?_ofFields (by simp)
  have haddress : Json.string? (.ofString member.address.toText) = some member.address.toText :=
    Json.text?_codesOf _
  simp [Member.ofJson?, hfields, Json.serverId?_natural h.id, haddress,
    SocketAddress.ofText?_toText h.address]

theorem Member.fits_of_ofJson? {json : Json} {member : Member}
    (h : Member.ofJson? json = some member) : member.Fits := by
  unfold Member.ofJson? at h
  split at h
  · obtain ⟨id, hid, h⟩ := Option.bind_eq_some_iff.1 h
    obtain ⟨text, -, h⟩ := Option.bind_eq_some_iff.1 h
    obtain ⟨address, haddress, h⟩ := Option.bind_eq_some_iff.1 h
    obtain rfl := Option.some.inj h
    exact ⟨Json.lt_of_serverId? hid, SocketAddress.isProper_of_ofText? haddress⟩
  · cases h

/-! ## Configurations -/

/-- All numbers of a configuration have at most 64 bits, and all its addresses can be read. -/
structure Configuration.Fits (config : Configuration) : Prop where
  self : config.self.number < wordLimit
  members : ∀ member ∈ config.members, member.Fits
  electionTimeout : config.electionTimeout.Fits
  heartbeat : config.heartbeat < wordLimit
  rpcTimeout : config.rpcTimeout < wordLimit

theorem Configuration.plain_toJson (config : Configuration) : config.toJson.Plain := by
  have hmembers : (Json.array (config.members.map Member.toJson)).Plain := .array fun json hjson => by
    obtain ⟨member, -, rfl⟩ := List.mem_map.1 hjson
    exact member.plain_toJson
  refine Json.plain_ofFields fun field hfield => ?_
  simp only [List.mem_cons, List.not_mem_nil, or_false] at hfield
  obtain rfl | rfl | rfl | rfl | rfl := hfield
  · exact .natural _
  · exact hmembers
  · exact config.electionTimeout.plain_toJson
  · exact .natural _
  · exact .natural _

theorem Configuration.ofJson?_toJson {config : Configuration} (h : config.Fits) :
    Configuration.ofJson? config.toJson = some config := by
  have hfields : config.toJson.fields? ["this_server_id", "cluster_servers", "timer_interval",
      "heartbeat_interval_ms", "rpc_timeout_ms"] =
      some ⟨false, [some (.natural config.self.number),
        some (.array (config.members.map Member.toJson)), some config.electionTimeout.toJson,
        some (.natural config.heartbeat), some (.natural config.rpcTimeout)]⟩ :=
    Json.fields?_ofFields (by simp)
  have hmembers : (config.members.map Member.toJson).mapM Member.ofJson? =
      some (config.members.map id) :=
    Json.mapM_map_eq_some fun member hmember => Member.ofJson?_toJson (h.members member hmember)
  rw [List.map_id] at hmembers
  simp [Configuration.ofJson?, hfields, Json.serverId?_natural h.self, Json.array?, hmembers,
    readOr, Interval.ofJson?_toJson h.electionTimeout, Json.word?_natural h.heartbeat,
    Json.word?_natural h.rpcTimeout]

/-- What holds of the standard value and of whatever is read holds of a field that can be left
    out. -/
theorem of_readOr {α : Type} {P : α → Prop} {standard a : α} {read : Json → Option α}
    {json? : Option Json} (hstandard : P standard) (hread : ∀ json, read json = some a → P a)
    (h : readOr standard read json? = some a) : P a := by
  cases json? with
  | none => exact Option.some.inj h ▸ hstandard
  | some json => exact hread json h

/-- What is read fits. -/
theorem Configuration.fits_of_ofJson? {json : Json} {config : Configuration}
    (h : Configuration.ofJson? json = some config) : config.Fits := by
  unfold Configuration.ofJson? at h
  simp only at h
  split at h
  · obtain ⟨self, hself, h⟩ := Option.bind_eq_some_iff.1 h
    obtain ⟨items, -, h⟩ := Option.bind_eq_some_iff.1 h
    obtain ⟨members, hmembers, h⟩ := Option.bind_eq_some_iff.1 h
    obtain ⟨electionTimeout, htimeout, h⟩ := Option.bind_eq_some_iff.1 h
    obtain ⟨heartbeat, hheartbeat, h⟩ := Option.bind_eq_some_iff.1 h
    obtain ⟨rpcTimeout, hrpc, h⟩ := Option.bind_eq_some_iff.1 h
    obtain rfl := Option.some.inj h
    refine ⟨Json.lt_of_serverId? hself, fun member hmember => ?_,
      of_readOr ⟨by decide, by decide⟩ (fun _ => Interval.fits_of_ofJson?) htimeout,
      of_readOr (P := (· < wordLimit)) (by decide) (fun _ => Json.lt_of_word?) hheartbeat,
      of_readOr (P := (· < wordLimit)) (by decide) (fun _ => Json.lt_of_word?) hrpc⟩
    obtain ⟨item, -, hitem⟩ := Json.exists_of_mem_mapM hmembers member hmember
    exact Member.fits_of_ofJson? hitem
  · cases h

/-- A configuration that was read is read back from its own text. -/
theorem Configuration.ofText_toText {text : String} {config : Configuration}
    (h : Configuration.ofText text = .ok config) :
    Configuration.ofText config.toText = .ok config := by
  unfold Configuration.ofText at h
  split at h
  · cases h
  · next read hread =>
    split at h
    · next hvalid =>
      obtain rfl := Except.ok.inj h
      obtain ⟨json, -, hjson⟩ := Option.bind_eq_some_iff.1 hread
      have hback : Json.Restores Configuration.toJson Configuration.ofJson? read :=
        read.plain_toJson.restores (ofJson?_toJson (fits_of_ofJson? hjson))
      simp only [Configuration.ofText, Configuration.toText]
      rw [hback]
      simp only [hvalid]
    · cases h

/-! ## All of them -/

/-- Each message and each of its parts, with numbers of 64 bits and any bytes, is read back from the
    text that it is written as, and so is each configuration that was read from any text. -/
theorem written_is_read_back :
    (∀ request : VoteRequest, request.Fits →
        Json.Restores VoteRequest.toJson VoteRequest.ofJson? request) ∧
      (∀ reply : VoteReply, reply.term < wordLimit →
        Json.Restores VoteReply.toJson VoteReply.ofJson? reply) ∧
      (∀ request : AppendRequest, request.Fits →
        Json.Restores AppendRequest.toJson AppendRequest.ofJson? request) ∧
      (∀ reply : AppendReply, reply.Fits →
        Json.Restores AppendReply.toJson AppendReply.ofJson? reply) ∧
      (∀ entry : Entry, entry.Fits → Json.Restores Entry.toJson Entry.ofJson? entry) ∧
      (∀ interval : Interval, interval.Fits →
        Json.Restores Interval.toJson Interval.ofJson? interval) ∧
      (∀ id : ServerId, id.number < wordLimit →
        Json.Restores (fun id : ServerId => .natural id.number) Json.serverId? id) ∧
      ∀ text config, Configuration.ofText text = .ok config →
        Configuration.ofText config.toText = .ok config :=
  ⟨fun request h => request.plain_toJson.restores (VoteRequest.ofJson?_toJson h),
    fun reply h => reply.plain_toJson.restores (VoteReply.ofJson?_toJson h),
    fun request h => request.plain_toJson.restores (AppendRequest.ofJson?_toJson h),
    fun reply h => reply.plain_toJson.restores (AppendReply.ofJson?_toJson h),
    fun entry h => entry.plain_toJson.restores (Entry.ofJson?_toJson h),
    fun interval h => interval.plain_toJson.restores (Interval.ofJson?_toJson h),
    fun id h => Json.Plain.restores (.natural id.number) (Json.serverId?_natural h),
    fun _ _ => Configuration.ofText_toText⟩

/-- A configuration with the default timings. -/
def twoMembers : Configuration :=
  .standard ⟨1⟩
    [⟨⟨1⟩, .v4 ⟨127, 0, 0, 1⟩ 9001⟩, ⟨⟨2⟩, .v6 [0xFE80, 0, 0, 0, 0, 0, 0, 1] 3 9002⟩]

/-- It can be given as a list of values, without names and timings, and is read back all the same,
    and so is a request with the largest of numbers. -/
theorem written_is_read_back_twoMembers :
    let text := "[1, [[1, \"127.0.0.1:9001\"], [2, \"[fe80:0:0::0001%3]:9002\"]]]"
    let last := wordLimit - 1
    (Configuration.ofText text = .ok twoMembers ∧
      Configuration.ofText twoMembers.toText = .ok twoMembers) ∧
    Json.Restores AppendRequest.toJson AppendRequest.ofJson?
      ⟨last, ⟨last⟩, ⟨last, last⟩, [⟨last, last, [0, 255]⟩, ⟨0, 0, []⟩], last⟩ := by
  intro text last
  obtain ⟨-, -, hrequest, -, -, -, -, hconfig⟩ := written_is_read_back
  have htext : Configuration.ofText text = .ok twoMembers := by decide +kernel
  have hlast : last < wordLimit := by decide
  refine ⟨⟨htext, hconfig text twoMembers htext⟩,
    hrequest _ ⟨hlast, hlast, hlast, hlast, fun entry hentry => ?_, hlast⟩⟩
  rcases List.mem_pair.1 hentry with rfl | rfl
  · exact ⟨hlast, hlast⟩
  · exact ⟨by decide, by decide⟩

end Quorum
