import Quorum.Proofs.Json.Reading

set_option autoImplicit false

/-! # Reading what was written

A value whose strings are texts and whose numbers are all natural is read back from the text it is
written as, and the fields of a record are found again in the object that holds them. -/

namespace Quorum.Json

/-! ## Values -/

/-- Nothing in the value is lost in writing: all strings are proper, all numbers natural. -/
inductive Plain : Json → Prop where
  | null : Plain .null
  | bool (value : Bool) : Plain (.bool value)
  | natural (value : Nat) : Plain (.natural value)
  | string {codes : List Nat} (proper : Proper codes) : Plain (.string codes)
  | array {items : List Json} (plain : ∀ item ∈ items, Plain item) : Plain (.array items)
  | object {members : List (List Nat × Json)} (proper : ∀ member ∈ members, Proper member.1)
      (plain : ∀ member ∈ members, Plain member.2) : Plain (.object members)

theorem blank_newLine (depth : Nat) : ∀ c ∈ newLine depth, isSpace c := by
  simp [newLine, isSpace]

theorem readsItems_indented {depth : Nat} {item : Json} {rest : List Json}
    (h : ∀ json ∈ item :: rest, Reads (json.indented (depth + 1)) json) :
    ReadsItems (newLine (depth + 1) ++ (item.indented (depth + 1) ++ indentedItems depth rest))
      (item :: rest) := by
  induction rest generalizing item with
  | nil =>
      have hline := (h item (by simp)).of_blank (blank_newLine (depth + 1))
      simpa [indentedItems] using ReadsItems.last hline (blank_newLine depth)
  | cons next rest ih =>
      have hline := (h item (by simp)).of_blank (blank_newLine (depth + 1))
      have hitems := ih fun json hjson => h json (List.mem_cons_of_mem _ hjson)
      simpa [indentedItems] using ReadsItems.cons hline (List.forall_mem_nil _) hitems

theorem readsMembers_indented {depth : Nat} {name : List Nat} {value : Json}
    {rest : List (List Nat × Json)}
    (hnames : ∀ member ∈ (name, value) :: rest, Proper member.1)
    (hvalues : ∀ member ∈ (name, value) :: rest,
      Reads (member.2.indented (depth + 1)) member.2) :
    ReadsMembers
      (newLine (depth + 1) ++ (writeString name ++
        ':' :: ' ' :: (value.indented (depth + 1) ++ indentedMembers depth rest)))
      ((name, value) :: rest) := by
  have hspace : ∀ c ∈ [' '], isSpace c := by simp [isSpace]
  have hspaced {text : List Char} {json : Json} (h : Reads text json) :
      Reads (' ' :: text) json := h.of_blank hspace
  induction rest generalizing name value with
  | nil =>
      have hvalue := hspaced (hvalues (name, value) (by simp))
      have hlast := ReadsMembers.last (hnames (name, value) (by simp)) hvalue (blank_newLine depth)
      simpa [indentedMembers] using hlast.of_blank (blank_newLine (depth + 1))
  | cons next rest ih =>
      have hvalue := hspaced (hvalues (name, value) (by simp))
      have hmembers := ih (fun member hmember => hnames member (List.mem_cons_of_mem _ hmember))
        fun member hmember => hvalues member (List.mem_cons_of_mem _ hmember)
      have hcons := ReadsMembers.cons (hnames (name, value) (by simp)) hvalue
        (List.forall_mem_nil _) hmembers
      simpa [indentedMembers] using hcons.of_blank (blank_newLine (depth + 1))

/-- A plain value is read back from its indented form, at whatever depth it stands. -/
theorem Plain.reads_indented {json : Json} (h : Plain json) (depth : Nat) :
    Reads (json.indented depth) json := by
  induction h generalizing depth with
  | null => simpa [indented] using reads_null
  | bool value =>
      cases value with
      | true => simpa [indented] using reads_true
      | false => simpa [indented] using reads_false
  | natural value => simpa [indented] using reads_natural value
  | string proper => simpa [indented] using reads_string proper
  | @array items _ ih =>
      cases items with
      | nil => simpa [indented] using reads_emptyArray
      | cons item rest =>
          simpa [indented] using (readsItems_indented fun json hjson => ih json hjson _).array
  | @object members proper _ ih =>
      cases members with
      | nil => simpa [indented] using reads_emptyObject
      | cons member rest =>
          obtain ⟨name, value⟩ := member
          simpa [indented] using (readsMembers_indented proper fun member hmember =>
            ih member hmember _).object

/-- A plain value is read back from its indented text. -/
theorem Plain.ofText?_toIndented {json : Json} (h : Plain json) :
    ofText? json.toIndented.toList = some json := by
  rw [toIndented, String.toList_ofList]
  exact (h.reads_indented 0).ofText?

theorem readsItems_compact {item : Json} {rest : List Json}
    (h : ∀ json ∈ item :: rest, Reads json.compact json) :
    ReadsItems (item.compact ++ compactItems rest) (item :: rest) := by
  induction rest generalizing item with
  | nil => simpa [compactItems] using ReadsItems.last (h item (by simp)) (List.forall_mem_nil _)
  | cons next rest ih =>
      have hitems := ih fun json hjson => h json (List.mem_cons_of_mem _ hjson)
      simpa [compactItems] using ReadsItems.cons (h item (by simp)) (List.forall_mem_nil _) hitems

theorem readsMembers_compact {name : List Nat} {value : Json} {rest : List (List Nat × Json)}
    (hnames : ∀ member ∈ (name, value) :: rest, Proper member.1)
    (hvalues : ∀ member ∈ (name, value) :: rest, Reads member.2.compact member.2) :
    ReadsMembers (writeString name ++ ':' :: (value.compact ++ compactMembers rest))
      ((name, value) :: rest) := by
  induction rest generalizing name value with
  | nil =>
      simpa [compactMembers] using ReadsMembers.last (hnames (name, value) (by simp))
        (hvalues (name, value) (by simp)) (List.forall_mem_nil _)
  | cons next rest ih =>
      have hmembers := ih (fun member hmember => hnames member (List.mem_cons_of_mem _ hmember))
        fun member hmember => hvalues member (List.mem_cons_of_mem _ hmember)
      simpa [compactMembers] using ReadsMembers.cons (hnames (name, value) (by simp))
        (hvalues (name, value) (by simp)) (List.forall_mem_nil _) hmembers

/-- A plain value is read back from its compact form. -/
theorem Plain.reads_compact {json : Json} (h : Plain json) : Reads json.compact json := by
  induction h with
  | null => simpa [compact] using reads_null
  | bool value =>
      cases value with
      | true => simpa [compact] using reads_true
      | false => simpa [compact] using reads_false
  | natural value => simpa [compact] using reads_natural value
  | string proper => simpa [compact] using reads_string proper
  | @array items _ ih =>
      cases items with
      | nil => simpa [compact] using reads_emptyArray
      | cons item rest => simpa [compact] using (readsItems_compact ih).array
  | @object members proper _ ih =>
      cases members with
      | nil => simpa [compact] using reads_emptyObject
      | cons member rest =>
          obtain ⟨name, value⟩ := member
          simpa [compact] using (readsMembers_compact proper ih).object

/-- A plain value is read back from its compact text. -/
theorem Plain.ofText?_toCompact {json : Json} (h : Plain json) :
    ofText? json.toCompact.toList = some json := by
  rw [toCompact, String.toList_ofList]
  exact h.reads_compact.ofText?

/-! ## Texts and bytes -/

theorem proper_codesOf (text : String) : Proper (codesOf text) := by
  intro code hcode
  obtain ⟨c, -, rfl⟩ := List.mem_map.1 hcode
  exact c.valid

@[simp]
theorem text?_codesOf (text : String) : text? (codesOf text) = some text := by
  rw [text?, if_pos]
  · simp [codesOf, Function.comp_def]
  · exact List.all_eq_true.2 fun code hcode => decide_eq_true (proper_codesOf text code hcode)

theorem codesOf_inj {a b : String} : codesOf a = codesOf b ↔ a = b := by
  constructor
  · intro h
    simpa using congrArg text? h
  · rintro rfl
    rfl

/-! ## Numbers and lists -/

theorem word?_natural {n : Nat} (h : n < wordLimit) : word? (.natural n) = some n := if_pos h

theorem lt_of_word? {json : Json} {n : Nat} (h : json.word? = some n) : n < wordLimit := by
  unfold word? at h
  split at h
  · split at h
    · next hlt => exact Option.some.inj h ▸ hlt
    · cases h
  · cases h

theorem serverId?_natural {id : ServerId} (h : id.number < wordLimit) :
    serverId? (.natural id.number) = some id := by
  rw [serverId?, word?_natural h]
  rfl

theorem lt_of_serverId? {json : Json} {id : ServerId} (h : json.serverId? = some id) :
    id.number < wordLimit := by
  obtain ⟨n, hn, rfl⟩ := Option.map_eq_some_iff.1 h
  exact lt_of_word? hn

/-- What comes of the items of a list comes of one of them. -/
theorem exists_of_mem_mapM {β γ : Type} {g : β → Option γ} {l : List β} {results : List γ}
    (h : l.mapM g = some results) : ∀ result ∈ results, ∃ item ∈ l, g item = some result := by
  induction l generalizing results with
  | nil =>
      cases h
      exact nofun
  | cons first l ih =>
      rw [List.mapM_cons] at h
      obtain ⟨head, hhead, h⟩ := Option.bind_eq_some_iff.1 h
      obtain ⟨tail, htail, h⟩ := Option.bind_eq_some_iff.1 h
      obtain rfl := Option.some.inj h
      intro result hresult
      obtain rfl | hresult := List.mem_cons.1 hresult
      · exact ⟨first, List.mem_cons_self, hhead⟩
      · obtain ⟨item, hitem, heq⟩ := ih htail result hresult
        exact ⟨item, List.mem_cons_of_mem _ hitem, heq⟩

theorem mapM_map_eq_some {α β γ : Type} {f : α → β} {g : β → Option γ} {result : α → γ}
    {l : List α} (h : ∀ a ∈ l, g (f a) = some (result a)) :
    (l.map f).mapM g = some (l.map result) := by
  induction l with
  | nil => rfl
  | cons a l ih =>
      have ⟨ha, hl⟩ := List.forall_mem_cons.1 h
      rw [List.map_cons, List.mapM_cons, ih hl, ha]
      rfl

theorem bytes?_ofBytes (bytes : Bytes) : (ofBytes bytes).bytes? = some bytes := by
  have hbyte (byte : UInt8) : byte? (.natural byte.toNat) = some byte := by
    simp [byte?, byte.toNat_lt]
  have hbytes : (bytes.map fun byte => Json.natural byte.toNat).mapM byte? =
      some (bytes.map id) := mapM_map_eq_some fun byte _ => hbyte byte
  rwa [List.map_id] at hbytes

theorem plain_ofBytes (bytes : Bytes) : Plain (ofBytes bytes) :=
  .array fun item hitem => by
    obtain ⟨byte, -, rfl⟩ := List.mem_map.1 hitem
    exact .natural _

/-! ## Records -/

theorem plain_ofFields {fields : List (String × Json)} (h : ∀ field ∈ fields, Plain field.2) :
    Plain (ofFields fields) := by
  refine .object ?_ ?_
  · intro member hmember
    obtain ⟨field, -, rfl⟩ := List.mem_map.1 hmember
    exact proper_codesOf field.1
  · intro member hmember
    obtain ⟨field, hfield, rfl⟩ := List.mem_map.1 hmember
    exact h field hfield

theorem filter_name {fields : List (String × Json)} (hnodup : (fields.map Prod.fst).Nodup)
    {field : String × Json} (hfield : field ∈ fields) :
    fields.filter (·.1 == field.1) = [field] := by
  induction fields with
  | nil => nomatch hfield
  | cons first rest ih =>
      have ⟨hfirst, hrest⟩ := List.nodup_cons.1 hnodup
      obtain rfl | hmem := List.mem_cons.1 hfield
      · have hnone : rest.filter (·.1 == field.1) = [] := by
          rw [List.filter_eq_nil_iff]
          intro other hother heq
          exact hfirst (List.mem_map.2 ⟨other, hother, by simpa using heq⟩)
        rw [List.filter_cons_of_pos (by simp), hnone]
      · have hne : first.1 ≠ field.1 := by
          rintro heq
          exact hfirst (heq ▸ List.mem_map_of_mem hmem)
        rw [List.filter_cons_of_neg (by simpa using hne), ih hrest hmem]

theorem member?_ofFields {fields : List (String × Json)} (hnodup : (fields.map Prod.fst).Nodup)
    {field : String × Json} (hfield : field ∈ fields) :
    member? (fields.map fun (name, value) => (codesOf name, value)) field.1 =
      some (some field.2) := by
  have hcodes : (fun pair : String × Json => codesOf pair.1 == codesOf field.1) =
      fun pair => pair.1 == field.1 := by
    funext pair
    rw [Bool.eq_iff_iff, beq_iff_eq, beq_iff_eq, codesOf_inj]
  simp [member?, List.filter_map, Function.comp_def, hcodes, filter_name hnodup hfield]

/-- The fields of a record are found in the object that holds them. -/
theorem fields?_ofFields {fields : List (String × Json)} (hnodup : (fields.map Prod.fst).Nodup) :
    (ofFields fields).fields? (fields.map Prod.fst) =
      some ⟨false, fields.map fun field => some field.2⟩ := by
  have hvalues := mapM_map_eq_some fun field hfield => member?_ofFields hnodup hfield
  simp [ofFields, fields?, hvalues]

/-! ## Whole texts -/

/-- Something is read back from the text that it is written as. -/
def Restores {α : Type} (toJson : α → Json) (ofJson? : Json → Option α) (a : α) : Prop :=
  (ofText? (toJson a).toCompact.toList).bind ofJson? = some a

theorem Plain.restores {α : Type} {toJson : α → Json} {ofJson? : Json → Option α} {a : α}
    (hplain : (toJson a).Plain) (h : ofJson? (toJson a) = some a) : Restores toJson ofJson? a := by
  rw [Restores, hplain.ofText?_toCompact]
  exact h

end Quorum.Json
