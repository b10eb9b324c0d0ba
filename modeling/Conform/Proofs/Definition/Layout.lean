import Conform.Proofs.Definition.Readable
import Conform.Proofs.Value.Draft

/-!
# Definitions that are laid out in drafts

A definition that is written out as a value has functions where parts are deferred.  So a
draft is laid out as a definition as a document is, and a function may stand for any
definition, for the fields of an object, and for a transform.

## Main definitions

* `Keyword.Suits`, `Keyword.Embeds`: suitable arguments, and the definitions in them.
* `Draft.IsDefinition`: drafts that are laid out as definitions.

## Main results

* `Draft.isDefinition_ofJson_iff`: the draft of a document is laid out as a definition
  exactly if the document is.
-/

namespace Conform

namespace Keyword

/-- The form of a keyword's argument, the definitions in it aside. -/
def Suits : Keyword → Draft → Prop
  | .optional, argument | .required, argument | .strict, argument => ∃ b, argument = .bool b
  | .type, argument => ∃ type : TypeName, argument = .string type.text
  | .schema, argument | .properties, argument =>
      argument = .function ∨ ∃ fields, argument = .object fields
  | .oneOf, argument | .enumeration, argument => ∃ items, argument = .array items
  | .bounds, argument => ∃ bounds, argument = .object bounds ∧ ∀ bound ∈ bounds,
      ∃ comparator : Comparator, bound.1 = comparator.text ∧
        (bound.2 = .null ∨ ∃ x, bound.2 = .number x)
  | .either, argument => ∃ items, argument = .array items ∧ items ≠ []
  | .require, argument | .restrict, argument =>
      ∃ items, argument = .array items ∧ ∀ item ∈ items, ∃ name, item = .string name
  | .default, _ | .items, _ => True
  | .custom, argument => argument = .function

/-- The definitions in the argument of a keyword. -/
inductive Embeds : Keyword → Draft → Draft → Prop where
  | field {keyword : Keyword} {fields : List (String × Draft)} {name : String} {part : Draft} :
      keyword = .schema ∨ keyword = .properties → (name, part) ∈ fields →
      Embeds keyword (.object fields) part
  | item {part : Draft} : part ≠ .null → Embeds .items part part
  | alternative {items : List Draft} {part : Draft} : part ∈ items →
      Embeds .either (.array items) part

/-- What is said of all definitions in an argument. -/
theorem forall_embeds_iff {P : Draft → Prop} {keyword : Keyword} {argument : Draft} :
    (∀ part, keyword.Embeds argument part → P part) ↔
      match keyword with
      | .schema | .properties => ∀ fields, argument = .object fields → ∀ field ∈ fields, P field.2
      | .items => argument ≠ .null → P argument
      | .either => ∀ items, argument = .array items → ∀ item ∈ items, P item
      | _ => True := by
  constructor
  · intro h
    split
    · rintro fields rfl field hmem
      exact h _ (.field (.inl rfl) hmem)
    · rintro fields rfl field hmem
      exact h _ (.field (.inr rfl) hmem)
    · exact fun hnull => h _ (.item hnull)
    · rintro items rfl item hmem
      exact h _ (.alternative hmem)
    · trivial
  · rintro h part (⟨hkeyword, hmem⟩ | hnull | hmem)
    · rcases hkeyword with rfl | rfl
      · exact h _ rfl _ hmem
      · exact h _ rfl _ hmem
    · exact h hnull
    · exact h _ rfl _ hmem

end Keyword

namespace Draft

/-- A draft that is laid out as a definition, where null counts as missing. -/
inductive IsDefinition : Draft → Prop where
  | function : IsDefinition .function
  | type (type : TypeName) : IsDefinition (.string type.text)
  | keywords {members : List (String × Draft)} :
      (∀ member ∈ members, ∃ keyword : Keyword, member.1 = keyword.text ∧
        (member.2 = .null ∨ keyword.Suits member.2)) →
      (∀ (keyword : Keyword) argument part, (keyword.text, argument) ∈ members →
        keyword.Embeds argument part → IsDefinition part) →
      IsDefinition (.object members)

/-! ## Drafts of documents -/

variable {json : Json}

theorem ofJson_eq_null_iff : ofJson json = .null ↔ json = .null := by
  cases json <;> simp [ofJson]

theorem ofJson_eq_bool_iff {b : Bool} : ofJson json = .bool b ↔ json = .bool b := by
  cases json <;> simp [ofJson]

theorem ofJson_eq_number_iff {x : Float} :
    ofJson json = .number x ↔ ∃ n, json = .number n ∧ n.toFloat = x := by
  cases json <;> simp [ofJson]

theorem ofJson_eq_string_iff {s : String} : ofJson json = .string s ↔ json = .string s := by
  cases json <;> simp [ofJson]

theorem ofJson_eq_array_iff {drafts : List Draft} :
    ofJson json = .array drafts ↔ ∃ items, json = .array items ∧ items.map ofJson = drafts := by
  cases json <;> simp [ofJson, ofItems_eq_map]

theorem ofJson_object {members : List (String × Json)} (h : (Entries.keys members).Nodup) :
    ofJson (.object members) = .object (Entries.mapValues ofJson members) := by
  rw [ofJson, ofMembers_eq_mapValues, Entries.collect_of_nodup]
  rwa [Entries.keys_mapValues]

theorem mem_mapValues_ofJson_iff {members : List (String × Json)} {name : String}
    {draft : Draft} : (name, draft) ∈ Entries.mapValues ofJson members ↔
      ∃ json, (name, json) ∈ members ∧ ofJson json = draft := by
  simp [Entries.mapValues]

theorem suits_ofJson_iff {keyword : Keyword} (hdistinct : json.Distinct) :
    keyword.Suits (ofJson json) ↔ keyword.Fits json := by
  cases keyword with
  | optional | required | strict => simp [Keyword.Suits, Keyword.Fits, ofJson_eq_bool_iff]
  | type => simp [Keyword.Suits, Keyword.Fits, ofJson_eq_string_iff]
  | schema | properties => cases json <;> simp [Keyword.Suits, Keyword.Fits, ofJson]
  | oneOf | enumeration => simp [Keyword.Suits, Keyword.Fits, ofJson_eq_array_iff]
  | bounds =>
    cases hdistinct with
    | object hnodup _ =>
      simp [Keyword.Suits, Keyword.Fits, ofJson_object hnodup, Entries.mapValues,
        ofJson_eq_null_iff, ofJson_eq_number_iff]
    | _ => simp [Keyword.Suits, Keyword.Fits, ofJson]
  | either => simp [Keyword.Suits, Keyword.Fits, ofJson_eq_array_iff]
  | require | restrict =>
    simp [Keyword.Suits, Keyword.Fits, ofJson_eq_array_iff, ofJson_eq_string_iff]
  | default | items => exact Iff.rfl
  | custom => cases json <;> simp [Keyword.Suits, Keyword.Fits, ofJson]

/-- The definitions in the draft of an argument are the drafts of those in the argument. -/
theorem embeds_ofJson_iff {keyword : Keyword} {part : Draft} (hdistinct : json.Distinct) :
    keyword.Embeds (ofJson json) part ↔ ∃ inner, keyword.Part json inner ∧ ofJson inner = part := by
  constructor
  · generalize hdraft : ofJson json = draft
    rintro (⟨hkeyword, hmem⟩ | hnull | hmem)
    · cases hdistinct with
      | object hnodup _ =>
        rw [ofJson_object hnodup] at hdraft
        cases hdraft
        obtain ⟨inner, hmem, hinner⟩ := mem_mapValues_ofJson_iff.1 hmem
        exact ⟨inner, .field hkeyword hmem, hinner⟩
      | _ => cases hdraft
    · refine ⟨json, .item fun heq => hnull ?_, hdraft⟩
      rw [← hdraft, heq, ofJson]
    · obtain ⟨items, rfl, rfl⟩ := ofJson_eq_array_iff.1 hdraft
      obtain ⟨inner, hmem, hinner⟩ := List.mem_map.1 hmem
      exact ⟨inner, .alternative hmem, hinner⟩
  · rintro ⟨inner, hpart, rfl⟩
    cases hpart with
    | field hkeyword hmem =>
      cases hdistinct with
      | object hnodup _ =>
        rw [ofJson_object hnodup]
        exact .field hkeyword (mem_mapValues_ofJson_iff.2 ⟨_, hmem, rfl⟩)
    | item hnull => exact .item fun heq => hnull (ofJson_eq_null_iff.1 heq)
    | alternative hmem =>
      rw [ofJson, ofItems_eq_map]
      exact .alternative (List.mem_map_of_mem hmem)

/-- **The draft of a document is laid out as a definition** exactly if the document is. -/
theorem isDefinition_ofJson_iff (json : Json) (hdistinct : json.Distinct) :
    (ofJson json).IsDefinition ↔ json.IsDefinition := by
  cases json with
  | string s =>
    constructor
    · rintro ⟨⟩
      exact .type _
    · rintro ⟨⟩
      exact .type _
  | object members =>
    obtain ⟨hnodup, hmembers⟩ : (Entries.keys members).Nodup ∧
        ∀ member ∈ members, member.2.Distinct := by
      cases hdistinct
      exact ⟨‹_›, ‹_›⟩
    -- What is inside of an argument is a smaller document.
    have hparts : ∀ (keyword : Keyword) argument part, (keyword.text, argument) ∈ members →
        keyword.Part argument part → ((ofJson part).IsDefinition ↔ part.IsDefinition) :=
      fun keyword argument part hmem hpart =>
        isDefinition_ofJson_iff part (hpart.distinct (hmembers _ hmem))
    rw [ofJson_object hnodup]
    constructor
    · rintro (_ | _ | ⟨hsuits, hdefinitions⟩)
      refine .keywords ?_ fun keyword argument part hmem hpart => ?_
      · rintro ⟨name, argument⟩ hmem
        obtain ⟨keyword, htext, hargument⟩ :=
          hsuits (name, ofJson argument) (mem_mapValues_ofJson_iff.2 ⟨argument, hmem, rfl⟩)
        exact ⟨keyword, htext, hargument.imp ofJson_eq_null_iff.1
          (suits_ofJson_iff (hmembers _ hmem)).1⟩
      · refine (hparts keyword argument part hmem hpart).1 ?_
        exact hdefinitions keyword _ _ (mem_mapValues_ofJson_iff.2 ⟨argument, hmem, rfl⟩)
          ((embeds_ofJson_iff (hmembers _ hmem)).2 ⟨part, hpart, rfl⟩)
    · rintro (_ | ⟨hfits, hdefinitions⟩)
      refine .keywords ?_ fun keyword argument part hmem hpart => ?_
      · rintro ⟨name, draft⟩ hmem
        obtain ⟨argument, hmember, rfl⟩ := mem_mapValues_ofJson_iff.1 hmem
        obtain ⟨keyword, htext, hargument⟩ := hfits (name, argument) hmember
        exact ⟨keyword, htext, hargument.imp ofJson_eq_null_iff.2
          (suits_ofJson_iff (hmembers _ hmember)).2⟩
      · obtain ⟨argument, hmember, rfl⟩ := mem_mapValues_ofJson_iff.1 hmem
        have hdistinct : argument.Distinct := hmembers _ hmember
        obtain ⟨inner, hinner, rfl⟩ := (embeds_ofJson_iff hdistinct).1 hpart
        exact (hparts keyword argument inner hmember hinner).2
          (hdefinitions keyword argument inner hmember hinner)
  | _ =>
    constructor
    · rintro ⟨⟩
    · rintro ⟨⟩
termination_by sizeOf json
decreasing_by
  have hlt := List.sizeOf_lt_of_mem hmem
  have hle := hpart.sizeOf_le
  subst_vars
  simp at hlt ⊢
  omega

end Draft

end Conform
