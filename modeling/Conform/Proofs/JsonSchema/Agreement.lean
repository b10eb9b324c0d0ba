import Conform.Proofs.Definition.Conforms
import Conform.Proofs.Definition.Readable
import Conform.Proofs.JsonSchema.Validity
import Conform.Proofs.Value.Denotation

/-!
# Documents and their values

A check looks at the value of a document, and a schema at the document itself.  Where no
object names a member twice, the value has the items and the members of the document, in
order; and where there is no null in the document, what is missing in an object is what
is missing in its value.  So what keywords say of the value, and what the words of JSON
Schema say of the document, can be compared keyword by keyword.

## Main definitions

* `Json.Nonnull`: documents without nulls.
* `Heap.Carries`: values of such documents.

## Main results

* `Heap.Carries.equalsJson_eq`: a value has the contents of a document if its own document
  is the same.
* `Heap.Carries.allows`, `Heap.Carries.hasType`: types of values and types of documents.
-/

namespace Conform

/-- There is no null in a document. -/
def Json.Nonnull (json : Json) : Prop := json.Throughout fun part => part ≠ .null

/-- A value has the contents of a document without nulls, no object in which names a member
twice. -/
structure Heap.Carries (heap : Heap) (level : Ref → Nat) (json : Json) (value : Value) :
    Prop where
  denotes : heap.Denotes level (.ofJson json) value
  distinct : json.Distinct
  nonnull : json.Nonnull

namespace Heap.Carries

variable {heap : Heap} {level : Ref → Nat} {json : Json} {value : Value}

/-- The value that is made of a document carries it. -/
theorem of_made {σ : Type} {world filled : World σ} (hdistinct : json.Distinct)
    (hnonnull : json.Nonnull)
    (hmade : Run.ofHeap (Value.ofJson json) world = (value, filled)) :
    filled.heap.Carries id json value := by
  obtain ⟨rfl, rfl⟩ := Prod.mk.inj hmade
  exact ⟨(HeapM.makes_ofJson json world.heap).2, hdistinct, hnonnull⟩

theorem ne_null (h : heap.Carries level json value) : value ≠ .null := by
  rintro rfl
  have hnull := h.denotes.null_iff.1 rfl
  obtain ⟨hself, -⟩ := h.nonnull
  cases json <;> cases hnull
  exact hself rfl

/-! ## Parts -/

theorem array {items : List Json} (h : heap.Carries level (.array items) value) :
    ∃ ref, value = .array ref ∧ List.Forall₂ (heap.Carries level) items (heap.items ref) := by
  obtain ⟨hdenotes, ⟨⟩, -, hnonnull⟩ := h
  rename_i hdistinct
  obtain ⟨ref, rfl⟩ : ∃ ref, value = .array ref := by
    cases hdenotes
    exact ⟨_, rfl⟩
  rw [Draft.ofJson, Draft.ofItems_eq_map] at hdenotes
  refine ⟨ref, rfl, forall₂_comp_of_mem (P := Eq) (List.forall₂_same.2 fun _ _ => rfl)
    (List.forall₂_map_left_iff.1 hdenotes.items.1) ?_⟩
  rintro item hmem _ part rfl hpart
  exact ⟨hpart, hdistinct item hmem, hnonnull item hmem⟩

theorem object {members : List (String × Json)} (h : heap.Carries level (.object members) value) :
    ∃ ref, value = .object ref ∧
      Entries.Alongside (heap.Carries level) members (heap.fields ref).entries := by
  obtain ⟨hdenotes, ⟨⟩, -, hnonnull⟩ := h
  rename_i hnodup hdistinct
  obtain ⟨ref, rfl⟩ : ∃ ref, value = .object ref := by
    cases hdenotes
    exact ⟨_, rfl⟩
  rw [Draft.ofJson, Draft.ofMembers_eq_mapValues,
    Entries.collect_of_nodup (by rwa [Entries.keys_mapValues])] at hdenotes
  refine ⟨ref, rfl, forall₂_comp_of_mem (P := Eq) (List.forall₂_same.2 fun _ _ => rfl)
    (List.forall₂_map_left_iff.1 hdenotes.alongside) ?_⟩
  rintro member hmem _ entry rfl ⟨hname, hpart⟩
  exact ⟨hname, hpart, hdistinct member hmem, hnonnull _ (List.mem_map_of_mem hmem)⟩

/-- What carries a document is an array exactly if the document is. -/
theorem exists_of_array {ref : Ref} (h : heap.Carries level json (.array ref)) :
    ∃ items, json = .array items ∧ List.Forall₂ (heap.Carries level) items (heap.items ref) := by
  cases json with
  | array items =>
    obtain ⟨_, ⟨⟩, hitems⟩ := h.array
    exact ⟨items, rfl, hitems⟩
  | _ => cases h.denotes

theorem exists_of_object {ref : Ref} (h : heap.Carries level json (.object ref)) :
    ∃ members, json = .object members ∧
      Entries.Alongside (heap.Carries level) members (heap.fields ref).entries := by
  cases json with
  | object members =>
    obtain ⟨_, ⟨⟩, hmembers⟩ := h.object
    exact ⟨members, rfl, hmembers⟩
  | _ => cases h.denotes

/-- The members of an object are the fields of its value, under the same names. -/
theorem fieldOf {ref : Ref} (h : heap.Carries level json (.object ref)) (name : String) :
    (∀ part, json.members.get? name = some part → heap.Carries level part (heap.fieldOf ref name)) ∧
      (json.members.get? name = none → heap.fieldOf ref name = .null) := by
  obtain ⟨members, rfl, hmembers⟩ := h.exists_of_object
  have hget := hmembers.get?_rel name
  unfold Heap.fieldOf OrderedMap.get? Json.members
  generalize Entries.get? members name = member at hget ⊢
  generalize (heap.fields ref).entries.get? name = part at hget ⊢
  cases hget with
  | some hpart => exact ⟨fun _ heq => Option.some.inj heq ▸ hpart, nofun⟩
  | none => exact ⟨nofun, fun _ => rfl⟩

/-- A field is there if the document has a member of its name. -/
theorem fieldOf_ne_null_iff {ref : Ref} (h : heap.Carries level json (.object ref))
    (name : String) : heap.fieldOf ref name ≠ .null ↔ name ∈ json.members.keys := by
  rw [← Entries.isSome_get?_iff]
  obtain ⟨hsome, hnone⟩ := h.fieldOf name
  cases hget : json.members.get? name with
  | some part => exact iff_of_true (hsome part hget).ne_null rfl
  | none => exact iff_of_false (fun hthere => hthere (hnone hget)) nofun

theorem keys_fields {ref : Ref} (h : heap.Carries level json (.object ref)) :
    (heap.fields ref).keys = json.members.keys := by
  obtain ⟨members, rfl, hmembers⟩ := h.exists_of_object
  exact hmembers.keys_eq.symm

/-! ## Scalars -/

theorem number_iff (h : heap.Carries level json value) {x : Float} :
    value = .number x ↔ ∃ n, json = .number n ∧ n.toFloat = x := by
  obtain ⟨hdenotes, -, -⟩ := h
  cases json <;> cases hdenotes <;> simp

/-- A document is of the type that its value is of. -/
theorem allows (h : heap.Carries level json value) {kind : TypeName} (hkind : kind ≠ .dateTime)
    (htype : value.HasType kind) : kind.Allows json := by
  obtain ⟨hdenotes, -, -⟩ := h
  cases json <;> cases hdenotes <;> cases htype <;> rfl

/-- A value is of the type that its document is of, if the type is known in JSON. -/
theorem hasType (h : heap.Carries level json value) {kind : TypeName} (hkind : kind ≠ .dateTime)
    (hfunction : kind ≠ .function) (hallows : kind.Allows json) : value.HasType kind := by
  obtain ⟨hdenotes, -, -⟩ := h
  cases json <;> cases hdenotes <;> cases kind <;>
    simp_all [TypeName.Allows, Json.kind, TypeName.text]
  all_goals constructor

mutual

/-- **A value has the contents of a document** exactly if its own document is the same. -/
theorem equalsJson_eq (document : Json) {json : Json} {value : Value}
    (h : heap.Carries level json value) : value.equalsJson heap document = document.same json := by
  cases json with
  | null =>
    obtain ⟨hself, -⟩ := h.nonnull
    exact absurd rfl hself
  | array items =>
    obtain ⟨ref, rfl, hitems⟩ := h.array
    cases document with
    | array others => exact equalsItems_eq others hitems
    | _ => rfl
  | object members =>
    obtain ⟨ref, rfl, hmembers⟩ := h.object
    cases document with
    | object others =>
      -- No member is named twice, so as many are counted in both.
      have hsize : (heap.fields ref).size = members.length := hmembers.length_eq.symm
      rw [Value.equalsJson, Json.same, hsize, equalsMembers_eq others hmembers]
    | _ => rfl
  | _ =>
    obtain ⟨hdenotes, -, -⟩ := h
    cases hdenotes
    cases document <;> rfl

theorem equalsItems_eq (documents : List Json) {items : List Json} {values : List Value}
    (h : List.Forall₂ (heap.Carries level) items values) :
    Value.equalsItems heap documents values = Json.sameItems documents items := by
  cases documents with
  | nil => cases h <;> rfl
  | cons document documents =>
    cases h with
    | nil => rfl
    | cons hfirst hrest =>
      rw [Value.equalsItems, Json.sameItems, equalsJson_eq document hfirst,
        equalsItems_eq documents hrest]

theorem equalsMembers_eq (documents : List (String × Json)) {members : Entries Json}
    {fields : OrderedMap Value}
    (h : Entries.Alongside (heap.Carries level) members fields.entries) :
    Value.equalsMembers heap documents fields = Json.sameMembers documents members := by
  cases documents with
  | nil => rfl
  | cons document documents =>
    obtain ⟨name, document⟩ := document
    rw [Value.equalsMembers, Json.sameMembers, equalsMembers_eq documents h]
    congr 1
    have hget := h.get?_rel name
    unfold OrderedMap.get?
    generalize members.get? name = member at hget ⊢
    generalize fields.entries.get? name = part at hget ⊢
    cases hget with
    | some hpart => exact equalsJson_eq document hpart
    | none => rfl

end

end Heap.Carries

end Conform
