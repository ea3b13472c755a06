import Quorum.Proofs.Chronicle.Elections

set_option autoImplicit false

/-! # The logs of a run

All logs of a run are made of births: a leader puts an entry at the end of its log, and whatever
log is found anywhere later on is a part of one that came about like this. As a term has one leader,
whose log only grows while it leads, the births of one term all go on where the others end. So an
index and a term say all about a log up to there. -/

namespace Quorum.Chronicle

variable {ids : List ServerId} {facts facts' : List Fact} {view : View}

/-! ## Valid logs -/

theorem Valid.mono {log : List Entry} (h : Valid facts log) (hsub : facts ⊆ facts') :
    Valid facts' log :=
  h.imp id fun hbirth => hsub hbirth

theorem Valid.birth {log : List Entry} (h : Valid facts log) (hne : log ≠ []) :
    Fact.birth log ∈ facts := h.resolve_left hne

/-- Every log of the run is valid, and so are all parts of it. -/
structure LogsValid (facts : List Fact) (view : View) : Prop where
  member : ∀ id, Valid facts (view id).log
  part : ∀ ⦃log⦄, Fact.birth log ∈ facts → ∀ part, part <+: log → Valid facts part
  round : ∀ ⦃term candidate log⦄, Fact.round term candidate log ∈ facts → Valid facts log
  vote : ∀ ⦃voter term candidate log⦄, Fact.vote voter term candidate log ∈ facts →
    Valid facts log
  sent : ∀ ⦃request log⦄, Fact.sent request log ∈ facts → Valid facts log

theorem LogsValid.of_prefix (h : LogsValid facts view) {log part : List Entry}
    (hlog : Valid facts log) (hpart : part <+: log) : Valid facts part := by
  rcases hlog with rfl | hbirth
  · exact Or.inl (List.prefix_nil.1 hpart)
  · exact h.part hbirth part hpart

theorem Possible.logsValid (h : Possible ids facts view) : LogsValid facts view := by
  induction h with
  | blank => constructor <;> grind [Valid]
  | push id entry h hlead hindex ih =>
    have hof := fun part => @LogsValid.of_prefix _ _ ih _ part (ih.member id)
    obtain ⟨_, _, _, _, _⟩ := ih
    constructor <;> grind [Valid, List.prefix_concat_iff]
  | send id request log elected h helected hleader hlog hcut ih =>
    have hvalid := ih.of_prefix (ih.member id) hlog
    obtain ⟨_, _, _, _, _⟩ := ih
    constructor <;> grind [Valid]
  | cut id request log common h hsent hterm hidle hlog hcommon hlongest ih =>
    have hvalid := ih.of_prefix (ih.member id) hcommon
    obtain ⟨_, _, _, _, _⟩ := ih
    constructor <;> grind [Valid]
  | adopt _ _ h _ ih | rest _ h ih | stand _ _ h _ ih | grant _ _ _ h _ _ _ ih
  | win _ _ _ h _ _ _ ih | keep _ _ _ h _ _ _ _ ih | replace _ _ _ h _ _ _ _ ih
  | crash _ _ h _ _ ih | note _ _ _ h _ _ _ _ ih =>
    -- the log of the rule is one that was there before
    obtain ⟨_, _, _, _, _⟩ := ih
    constructor <;> grind [Valid]

/-- The entries of a log that leaders have made carry the indices 1, 2, 3, … -/
theorem Possible.birth_contiguous (h : Possible ids facts view) {log : List Entry}
    (hbirth : Fact.birth log ∈ facts) : log ≠ [] ∧ ContiguousFrom 1 log := by
  induction h generalizing log with
  | blank => simp at hbirth
  | @push facts view id entry h hlead hindex ih =>
    simp only [List.mem_cons, reduceCtorEq, false_or, Fact.birth.injEq] at hbirth
    rcases hbirth with rfl | hbirth
    · refine ⟨by simp, ?_⟩
      rcases h.logsValid.member id with hnil | hbirth
      · rw [hnil] at hindex ⊢
        simpa using hindex
      · exact (ih hbirth).2.concat (by omega)
    · exact ih hbirth
  | _ => grind

theorem Possible.contiguous (h : Possible ids facts view) {log : List Entry}
    (hlog : Valid facts log) : ContiguousFrom 1 log := by
  rcases hlog with rfl | hbirth
  · simp
  · exact (h.birth_contiguous hbirth).2

/-! ## What is done in a term -/

/-- Requests are sent in the name of the leader of their term. -/
theorem Possible.sent_elected (h : Possible ids facts view) {request : AppendRequest}
    {log : List Entry} (hsent : Fact.sent request log ∈ facts) :
    (∃ elected, Fact.election request.term request.leader elected ∈ facts) ∧
      request.CutFrom log := by
  induction h with
  | blank => simp at hsent
  | _ => grind

/-- A member acknowledges logs in terms that it has reached and in which somebody was elected. -/
theorem Possible.ack_elected (h : Possible ids facts view) {member : ServerId} {term : Nat}
    {log : List Entry} (hack : Fact.ack member term log ∈ facts) :
    term ≤ (view member).term ∧ ∃ leader elected, Fact.election term leader elected ∈ facts := by
  induction h with
  | blank => simp at hack
  | win id term' group h hrun hgroup hvotes ih =>
    have hterm := (h.runs hrun).term_eq
    grind
  | push id entry h hlead hindex ih =>
    have hleads := h.leads hlead
    obtain ⟨hterm, hvote, log', he, hlog'⟩ := hleads
    grind
  | keep id request log' h hsent hterm hidle hlog ih =>
    have helected := (h.sent_elected hsent).1
    grind
  | replace id request log' h hsent hterm hidle hlog ih =>
    have helected := (h.sent_elected hsent).1
    grind
  | _ => grind

/-- Entries are put into logs by the leader of their term, behind the log with which it was
    elected. It acknowledges them itself. -/
theorem Possible.birth_elected (h : Possible ids facts view) {log : List Entry}
    (hbirth : Fact.birth log ∈ facts) :
    ∃ leader elected, Fact.election (lastTerm log) leader elected ∈ facts ∧ elected <+: log ∧
      Fact.ack leader (lastTerm log) log ∈ facts := by
  induction h with
  | blank => simp at hbirth
  | @push facts view id entry h hlead hindex ih =>
    simp only [List.mem_cons, reduceCtorEq, false_or, Fact.birth.injEq] at hbirth
    rcases hbirth with rfl | hbirth
    · obtain ⟨hterm, hvote, elected, he, hbegins⟩ := h.leads hlead
      exact ⟨id, elected, by simp [he], hbegins.trans (List.prefix_append ..), by simp⟩
    · obtain ⟨leader, elected, he, hbegins, hack⟩ := ih hbirth
      exact ⟨leader, elected, by simp [he], hbegins, by simp [hack]⟩
  | _ => grind

/-- All that was made, sent and acknowledged in the term of a leader is part of its log. -/
structure Commands (facts : List Fact) (log : List Entry) (term : Nat) : Prop where
  birth : ∀ ⦃part⦄, Fact.birth part ∈ facts → lastTerm part = term → part <+: log
  sent : ∀ ⦃request part⦄, Fact.sent request part ∈ facts → request.term = term → part <+: log
  ack : ∀ ⦃member part⦄, Fact.ack member term part ∈ facts → part <+: log

theorem Possible.commands (h : Possible ids facts view) {id : ServerId} {term : Nat}
    (hlead : (view id).standing = .leading term) : Commands facts (view id).log term := by
  induction h with
  | blank => simp at hlead
  | @win facts view id' term' group h hrun hgroup hvotes ih =>
    by_cases hid : id = id'
    · -- nobody was elected in this term before, so nothing was done in it either
      subst hid
      rw [View.set_self] at hlead ⊢
      obtain rfl : term' = term := Standing.leading.inj hlead
      have hnone := h.not_elected_before hrun hgroup hvotes
      refine ⟨?_, ?_, ?_⟩
      · rintro part hbirth rfl
        simp only [List.mem_cons, reduceCtorEq, false_or] at hbirth
        obtain ⟨leader, elected, he, -⟩ := h.birth_elected hbirth
        exact absurd he (hnone leader elected)
      · rintro request part hsent rfl
        simp only [List.mem_cons, reduceCtorEq, false_or] at hsent
        obtain ⟨⟨elected, he⟩, -⟩ := h.sent_elected hsent
        exact absurd he (hnone _ elected)
      · intro member part hack
        simp only [List.mem_cons, Fact.ack.injEq, reduceCtorEq, false_or] at hack
        rcases hack with ⟨-, -, rfl⟩ | hack
        · exact List.prefix_rfl
        · obtain ⟨-, leader, elected, he⟩ := h.ack_elected hack
          exact absurd he (hnone leader elected)
    · have hother : term' ≠ term := by
        rintro rfl
        rw [View.set_of_ne _ _ hid] at hlead
        obtain ⟨elected, he, -⟩ := (h.leads hlead).elected
        exact h.not_elected_before hrun hgroup hvotes _ _ he
      rw [View.set_of_ne _ _ hid] at hlead ⊢
      obtain ⟨hbirth, hsent, hack⟩ := ih hlead
      constructor <;> grind
  | @push facts view id' entry h hlead' hindex ih =>
    by_cases hid : id = id'
    · subst hid
      rw [View.set_self] at hlead ⊢
      obtain ⟨hbirth, hsent, hack⟩ := ih hlead
      have hgrows : (view id).log <+: (view id).log ++ [entry] := List.prefix_append ..
      constructor <;> grind [List.IsPrefix.trans]
    · rw [View.set_of_ne _ _ hid] at hlead ⊢
      have hother : entry.term ≠ term := by
        rintro rfl
        obtain ⟨elected, he, -⟩ := (h.leads hlead').elected
        exact hid (h.eq_of_leads hlead he).symm
      obtain ⟨hbirth, hsent, hack⟩ := ih hlead
      constructor <;> grind [lastTerm_concat]
  | @send facts view id' request log elected h helected hleader hlog hcut ih =>
    obtain ⟨hbirth, hsent, hack⟩ := ih hlead
    have hself : request.term = term → id' = id := by
      rintro rfl
      exact h.eq_of_leads hlead helected
    constructor <;> grind
  | _ => grind [Commands]

/-- A leader acknowledges its own log whenever that grows. -/
theorem Possible.leader_acked (h : Possible ids facts view) {id : ServerId} {term : Nat}
    (hlead : (view id).standing = .leading term) : Fact.ack id term (view id).log ∈ facts := by
  induction h with
  | blank => simp at hlead
  | _ => grind

/-! ## Matching -/

/-- Of two logs made in the same term, one goes on where the other ends. -/
theorem Possible.births_comparable (h : Possible ids facts view) {a b : List Entry}
    (ha : Fact.birth a ∈ facts) (hb : Fact.birth b ∈ facts) (hterm : lastTerm a = lastTerm b) :
    Comparable a b := by
  induction h generalizing a b with
  | blank => simp at ha
  | @push facts view id entry h hlead hindex ih =>
    have hcommands := (h.commands hlead).birth
    simp only [List.mem_cons, reduceCtorEq, false_or, Fact.birth.injEq] at ha hb
    rcases ha with rfl | ha <;> rcases hb with rfl | hb
    · exact Or.inl List.prefix_rfl
    · rw [lastTerm_concat] at hterm
      exact Or.inr ((hcommands hb hterm.symm).trans (List.prefix_append ..))
    · rw [lastTerm_concat] at hterm
      exact Or.inl ((hcommands ha hterm).trans (List.prefix_append ..))
    · exact ih ha hb hterm
  | _ => grind

/-- Logs that end alike are the same. -/
theorem Possible.eq_of_ends (h : Possible ids facts view) {a b : List Entry}
    (ha : Valid facts a) (hb : Valid facts b) (hlength : a.length = b.length)
    (hterm : lastTerm a = lastTerm b) : a = b := by
  rcases ha with rfl | ha
  · exact (List.length_eq_zero_iff.1 hlength.symm).symm
  · rcases hb with rfl | hb
    · exact List.length_eq_zero_iff.1 hlength
    · exact (h.births_comparable ha hb hterm).eq_of_length_eq hlength

/-- Two logs with entries of the same index and term agree up to there. -/
theorem Possible.take_eq_take (h : Possible ids facts view) {a b : List Entry}
    (ha : Valid facts a) (hb : Valid facts b) {count : Nat} (hcount : count ≤ a.length)
    (hcount' : count ≤ b.length) (hterm : lastTerm (a.take count) = lastTerm (b.take count)) :
    a.take count = b.take count := by
  refine h.eq_of_ends (h.logsValid.of_prefix ha (List.take_prefix ..))
    (h.logsValid.of_prefix hb (List.take_prefix ..)) ?_ hterm
  rw [List.length_take_of_le hcount, List.length_take_of_le hcount']

end Quorum.Chronicle
