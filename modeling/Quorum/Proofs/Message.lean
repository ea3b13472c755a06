import Mathlib.Tactic.MkIffOfInductiveProp
import Quorum.Message
import Quorum.Proofs.Json.RoundTrip

set_option autoImplicit false

/-! # Messages and their parts are read back

A record whose numbers have at most 64 bits is read back from the JSON value it is written as. -/

namespace Quorum

/-! ## Entries -/

/-- The numbers of an entry have at most 64 bits. -/
@[mk_iff]
structure Entry.Fits (entry : Entry) : Prop where
  term : entry.term < wordLimit
  index : entry.index < wordLimit

instance (entry : Entry) : Decidable entry.Fits :=
  decidable_of_iff _ (Entry.fits_iff entry).symm

theorem Entry.plain_toJson (entry : Entry) : entry.toJson.Plain := by
  refine Json.plain_ofFields fun field hfield => ?_
  simp only [List.mem_cons, List.not_mem_nil, or_false] at hfield
  obtain rfl | rfl | rfl := hfield
  · exact .natural _
  · exact .natural _
  · exact Json.plain_ofBytes _

theorem Entry.ofJson?_toJson {entry : Entry} (h : entry.Fits) :
    Entry.ofJson? entry.toJson = some entry := by
  have hfields : entry.toJson.fields? ["term", "index", "command"] =
      some ⟨false, [some (.natural entry.term), some (.natural entry.index),
        some (.ofBytes entry.command)]⟩ := Json.fields?_ofFields (by simp)
  simp [Entry.ofJson?, hfields, Json.word?_natural h.term, Json.word?_natural h.index,
    Json.bytes?_ofBytes]

/-- What is read fits. -/
theorem Entry.fits_of_ofJson? {json : Json} {entry : Entry} (h : Entry.ofJson? json = some entry) :
    entry.Fits := by
  unfold Entry.ofJson? at h
  split at h
  · obtain ⟨term, hterm, h⟩ := Option.bind_eq_some_iff.1 h
    obtain ⟨index, hindex, h⟩ := Option.bind_eq_some_iff.1 h
    obtain ⟨command, -, h⟩ := Option.bind_eq_some_iff.1 h
    obtain rfl := Option.some.inj h
    exact ⟨Json.lt_of_word? hterm, Json.lt_of_word? hindex⟩
  · cases h

theorem plain_entriesToJson (entries : List Entry) : (entriesToJson entries).Plain :=
  .array fun json hjson => by
    obtain ⟨entry, -, rfl⟩ := List.mem_map.1 hjson
    exact entry.plain_toJson

theorem entriesOfJson?_entriesToJson {entries : List Entry} (h : ∀ entry ∈ entries, entry.Fits) :
    entriesOfJson? (entriesToJson entries) = some entries := by
  have hentries : (entries.map Entry.toJson).mapM Entry.ofJson? = some (entries.map id) :=
    Json.mapM_map_eq_some fun entry hentry => Entry.ofJson?_toJson (h entry hentry)
  rwa [List.map_id] at hentries

theorem fits_of_entriesOfJson? {json : Json} {entries : List Entry}
    (h : entriesOfJson? json = some entries) : ∀ entry ∈ entries, entry.Fits := by
  obtain ⟨items, -, hitems⟩ := Option.bind_eq_some_iff.1 h
  intro entry hentry
  obtain ⟨item, -, hitem⟩ := Json.exists_of_mem_mapM hitems entry hentry
  exact Entry.fits_of_ofJson? hitem

/-! ## Requests and replies -/

/-- The numbers of a candidate's request have at most 64 bits. -/
structure VoteRequest.Fits (request : VoteRequest) : Prop where
  term : request.term < wordLimit
  candidate : request.candidate.number < wordLimit
  lastIndex : request.last.index < wordLimit
  lastTerm : request.last.term < wordLimit

theorem VoteRequest.plain_toJson (request : VoteRequest) : request.toJson.Plain := by
  refine Json.plain_ofFields fun field hfield => ?_
  simp only [List.mem_cons, List.not_mem_nil, or_false] at hfield
  obtain rfl | rfl | rfl | rfl := hfield <;> exact .natural _

theorem VoteRequest.ofJson?_toJson {request : VoteRequest} (h : request.Fits) :
    VoteRequest.ofJson? request.toJson = some request := by
  have hfields : request.toJson.fields? ["term", "candidate_id", "last_log_index",
      "last_log_term"] =
      some ⟨false, [some (.natural request.term), some (.natural request.candidate.number),
        some (.natural request.last.index), some (.natural request.last.term)]⟩ :=
    Json.fields?_ofFields (by simp)
  simp [VoteRequest.ofJson?, hfields, Json.word?_natural h.term,
    Json.serverId?_natural h.candidate, Json.word?_natural h.lastIndex,
    Json.word?_natural h.lastTerm]

theorem VoteReply.plain_toJson (reply : VoteReply) : reply.toJson.Plain := by
  refine Json.plain_ofFields fun field hfield => ?_
  simp only [List.mem_cons, List.not_mem_nil, or_false] at hfield
  obtain rfl | rfl := hfield
  · exact .natural _
  · exact .bool _

theorem VoteReply.ofJson?_toJson {reply : VoteReply} (h : reply.term < wordLimit) :
    VoteReply.ofJson? reply.toJson = some reply := by
  have hfields : reply.toJson.fields? ["term", "vote_granted"] =
      some ⟨false, [some (.natural reply.term), some (.bool reply.granted)]⟩ :=
    Json.fields?_ofFields (by simp)
  simp [VoteReply.ofJson?, hfields, Json.word?_natural h, Json.bool?]

/-- The numbers of a leader's request have at most 64 bits. -/
structure AppendRequest.Fits (request : AppendRequest) : Prop where
  term : request.term < wordLimit
  leader : request.leader.number < wordLimit
  prevIndex : request.prev.index < wordLimit
  prevTerm : request.prev.term < wordLimit
  entries : ∀ entry ∈ request.entries, entry.Fits
  commit : request.commit < wordLimit

theorem AppendRequest.plain_toJson (request : AppendRequest) : request.toJson.Plain := by
  refine Json.plain_ofFields fun field hfield => ?_
  simp only [List.mem_cons, List.not_mem_nil, or_false] at hfield
  obtain rfl | rfl | rfl | rfl | rfl | rfl := hfield
  case inr.inr.inr.inr.inl => exact plain_entriesToJson request.entries
  all_goals exact .natural _

theorem AppendRequest.ofJson?_toJson {request : AppendRequest} (h : request.Fits) :
    AppendRequest.ofJson? request.toJson = some request := by
  have hfields : request.toJson.fields? ["term", "leader_id", "prev_log_index", "prev_log_term",
      "entries", "leader_commit"] =
      some ⟨false, [some (.natural request.term), some (.natural request.leader.number),
        some (.natural request.prev.index), some (.natural request.prev.term),
        some (entriesToJson request.entries), some (.natural request.commit)]⟩ :=
    Json.fields?_ofFields (by simp)
  simp [AppendRequest.ofJson?, hfields, Json.word?_natural h.term,
    Json.serverId?_natural h.leader, Json.word?_natural h.prevIndex,
    Json.word?_natural h.prevTerm, entriesOfJson?_entriesToJson h.entries,
    Json.word?_natural h.commit]

/-- The numbers of an answer to a leader have at most 64 bits. -/
structure AppendReply.Fits (reply : AppendReply) : Prop where
  term : reply.term < wordLimit
  matched : reply.matched < wordLimit

theorem AppendReply.plain_toJson (reply : AppendReply) : reply.toJson.Plain := by
  refine Json.plain_ofFields fun field hfield => ?_
  simp only [List.mem_cons, List.not_mem_nil, or_false] at hfield
  obtain rfl | rfl | rfl := hfield
  · exact .natural _
  · exact .bool _
  · exact .natural _

theorem AppendReply.ofJson?_toJson {reply : AppendReply} (h : reply.Fits) :
    AppendReply.ofJson? reply.toJson = some reply := by
  have hfields : reply.toJson.fields? ["term", "success", "match_index"] =
      some ⟨false, [some (.natural reply.term), some (.bool reply.success),
        some (.natural reply.matched)]⟩ := Json.fields?_ofFields (by simp)
  simp [AppendReply.ofJson?, hfields, Json.word?_natural h.term, Json.bool?,
    Json.word?_natural h.matched]

end Quorum
