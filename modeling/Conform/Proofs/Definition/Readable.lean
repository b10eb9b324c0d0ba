import Mathlib.Data.List.Nodup
import Mathlib.Tactic.MkIffOfInductiveProp
import Conform.Proofs.Definition.Met

/-!
# Which documents can be read

Whether a document can be read as a definition is said without reading it.  The document
must be laid out as a definition: the name of a type, or an object of keywords with
arguments that fit, and definitions in turn where these belong.  An argument of null
counts as missing there.  The reader asks for more, and asks it at every place of a
definition: it takes no null but that of a default, and only one of two names for the
same keyword.

No object may name a member twice, as none does that stands for a map.

## Main definitions

* `Json.Distinct`, `Json.Finite`: no object names a member twice, and numbers are finite.
* `Keyword.Fits`, `Keyword.Part`: fitting arguments, and the definitions in them.
* `Json.IsDefinition`: documents that are laid out as definitions.
* `Json.Position`, `Json.Tidy`: the places of definitions, and what is asked there.

## Main results

* `Definition.nodup_fields_ofJson`: no field is declared twice.
* `Json.readable_object_iff`: what the reader asks of an object.
* `Json.readable_iff`: a document can be read when it is laid out as a definition and tidy.
-/

namespace Conform

/-- No object in a document names a member twice. -/
inductive Json.Distinct : Json → Prop where
  | null : Distinct .null
  | bool (b : Bool) : Distinct (.bool b)
  | number (n : Json.Number) : Distinct (.number n)
  | string (s : String) : Distinct (.string s)
  | array {items : List Json} : (∀ item ∈ items, Distinct item) → Distinct (.array items)
  | object {members : List (String × Json)} : (Entries.keys members).Nodup →
      (∀ member ∈ members, Distinct member.2) → Distinct (.object members)

/-- The documents that a document is made up of. -/
def Json.parts : Json → List Json
  | .array items => items
  | .object members => members.map Prod.snd
  | _ => []

/-- A document is as it should be, and so are all that it is made up of. -/
inductive Json.Throughout (good : Json → Prop) : Json → Prop where
  | intro {json : Json} (self : good json) (parts : ∀ part ∈ json.parts, Throughout good part) :
      Throughout good json

/-- The numbers in a document are finite. -/
def Json.Finite (json : Json) : Prop :=
  json.Throughout fun part => ∀ n, part = .number n → n.toFloat.isFinite = true

/-! ## Arguments -/

namespace Keyword

/-- No two keywords are written alike. -/
theorem text_injective : Function.Injective text := by
  intro keyword other htext
  rw [← Option.some.injEq, ← ofText?_text, htext, ofText?_text]

/-- The form of a keyword's argument, the definitions in it aside. -/
def Fits : Keyword → Json → Prop
  | .optional, argument | .required, argument | .strict, argument => ∃ b, argument = .bool b
  | .type, argument => ∃ type : TypeName, argument = .string type.text
  | .schema, argument | .properties, argument => ∃ fields, argument = .object fields
  | .oneOf, argument | .enumeration, argument => ∃ items, argument = .array items
  | .bounds, argument => ∃ bounds, argument = .object bounds ∧ ∀ bound ∈ bounds,
      ∃ comparator : Comparator, bound.1 = comparator.text ∧
        (bound.2 = .null ∨ ∃ n, bound.2 = .number n)
  | .either, argument => ∃ items, argument = .array items ∧ items ≠ []
  | .require, argument | .restrict, argument =>
      ∃ items, argument = .array items ∧ ∀ item ∈ items, ∃ name, item = .string name
  | .default, _ | .items, _ => True
  | .custom, _ => False

/-- The definitions in the argument of a keyword. -/
inductive Part : Keyword → Json → Json → Prop where
  | field {keyword : Keyword} {fields : List (String × Json)} {name : String} {part : Json} :
      keyword = .schema ∨ keyword = .properties → (name, part) ∈ fields →
      Part keyword (.object fields) part
  | item {part : Json} : part ≠ .null → Part .items part part
  | alternative {items : List Json} {part : Json} : part ∈ items → Part .either (.array items) part

theorem Part.sizeOf_le {keyword : Keyword} {argument part : Json}
    (h : keyword.Part argument part) : sizeOf part ≤ sizeOf argument := by
  cases h with
  | field _ hmem =>
    have := List.sizeOf_lt_of_mem hmem
    simp at this ⊢
    omega
  | item _ => exact Nat.le_refl _
  | alternative hmem =>
    have := List.sizeOf_lt_of_mem hmem
    simp
    omega

theorem Part.distinct {keyword : Keyword} {argument part : Json}
    (h : keyword.Part argument part) (hdistinct : argument.Distinct) : part.Distinct := by
  cases h with
  | field _ hmem =>
    cases hdistinct with
    | object _ hmembers => exact hmembers _ hmem
  | item _ => exact hdistinct
  | alternative hmem =>
    cases hdistinct with
    | array hitems => exact hitems _ hmem

end Keyword

namespace Json

/-! ## Layout -/

/-- A document that is laid out as a definition, where null counts as missing. -/
inductive IsDefinition : Json → Prop where
  | type (type : TypeName) : IsDefinition (.string type.text)
  | keywords {members : List (String × Json)} :
      (∀ member ∈ members, ∃ keyword : Keyword, member.1 = keyword.text ∧
        (member.2 = .null ∨ keyword.Fits member.2)) →
      (∀ (keyword : Keyword) argument part, (keyword.text, argument) ∈ members →
        keyword.Part argument part → IsDefinition part) →
      IsDefinition (.object members)

/-- The places of a document at which a definition is expected. -/
inductive Position : Json → Json → Prop where
  | root {json : Json} : Position json json
  | part {members : List (String × Json)} {keyword : Keyword} {argument part json : Json} :
      (keyword.text, argument) ∈ members → keyword.Part argument part → Position part json →
      Position (.object members) json

/-- An object has no null for an argument, but for a default; none for a bound; and only
one of two names for the same keyword. -/
structure Tidy (members : List (String × Json)) : Prop where
  arguments : ∀ name, (name, .null) ∈ members → name = Keyword.default.text
  bounds : ∀ bounds, (Keyword.bounds.text, .object bounds) ∈ members →
    ∀ comparator, (comparator, .null) ∉ bounds
  fields : ¬ (Keyword.schema.text ∈ Entries.keys members ∧
    Keyword.properties.text ∈ Entries.keys members)
  documents : ¬ (Keyword.oneOf.text ∈ Entries.keys members ∧
    Keyword.enumeration.text ∈ Entries.keys members)

/-- A document that can be read as a definition. -/
def Readable (json : Json) : Prop := ∃ definition, Definition.ofJson json = .ok definition

end Json

/-- What the reader takes for the argument of a keyword. -/
structure Keyword.Accepts (keyword : Keyword) (argument : Json) : Prop where
  fits : keyword.Fits argument
  part : ∀ part, keyword.Part argument part → part.Readable
  null : argument = .null → keyword = .default
  bounds : keyword = .bounds → ∀ bounds, argument = .object bounds →
    ∀ comparator, (comparator, .null) ∉ bounds

/-- What the reader takes for the members of an object, when `fields` and `documents` tell
whether fields and documents have been declared before. -/
@[mk_iff]
structure Json.Legible (fields documents : Bool) (members : List (String × Json)) : Prop where
  accepts : ∀ member ∈ members, ∃ keyword : Keyword, member.1 = keyword.text ∧
    keyword.Accepts member.2
  fields : fields.toNat + (Entries.keys members).count Keyword.schema.text +
    (Entries.keys members).count Keyword.properties.text ≤ 1
  documents : documents.toNat + (Entries.keys members).count Keyword.oneOf.text +
    (Entries.keys members).count Keyword.enumeration.text ≤ 1

/-! ## Reading arguments -/

namespace Definition

theorem exists_bind_eq_ok {ε α β : Type} {x : Except ε α} {f : α → Except ε β} :
    (∃ b, x >>= f = .ok b) ↔ ∃ a, x = .ok a ∧ ∃ b, f a = .ok b := by
  constructor
  · rintro ⟨b, h⟩
    obtain ⟨a, ha, hb⟩ := bind_eq_ok h
    exact ⟨a, ha, b, hb⟩
  · rintro ⟨a, rfl, b, hb⟩
    exact ⟨b, hb⟩

theorem exists_ofText_iff {name : String} :
    (∃ type, TypeName.ofText name = .ok type) ↔ ∃ type : TypeName, name = type.text := by
  constructor
  · rintro ⟨type, h⟩
    unfold TypeName.ofText at h
    split at h
    · next found hfound => exact ⟨found, TypeName.ofText?_eq_some_iff.1 hfound⟩
    · cases h
  · rintro ⟨type, rfl⟩
    exact ⟨type, TypeName.ofText_text type⟩

theorem exists_comparator_iff {name : String} :
    (∃ comparator, Comparator.ofText name = .ok comparator) ↔
      ∃ comparator : Comparator, name = comparator.text := by
  constructor
  · rintro ⟨comparator, h⟩
    unfold Comparator.ofText at h
    split at h
    · next found hfound =>
      have htext := List.find?_some (p := fun c : Comparator => c.text == name) hfound
      exact ⟨found, (eq_of_beq htext).symm⟩
    · cases h
  · rintro ⟨comparator, rfl⟩
    exact ⟨comparator, Comparator.ofText_text comparator⟩

variable {keyword : String} {argument : Json}

theorem exists_boolArgument_iff :
    (∃ b, boolArgument keyword argument = .ok b) ↔ ∃ b, argument = .bool b := by
  cases argument <;> simp [boolArgument, Json.bool?]

theorem exists_typeArgument_iff :
    (∃ type, typeArgument keyword argument = .ok type) ↔
      ∃ type : TypeName, argument = .string type.text := by
  cases argument with
  | string name =>
    simp only [typeArgument, Json.text?, Json.string.injEq]
    exact exists_ofText_iff
  | _ => simp [typeArgument, Json.text?]

theorem exists_allowedArgument_iff :
    (∃ documents, allowedArgument keyword argument = .ok documents) ↔
      ∃ items, argument = .array items := by
  cases argument <;> simp [allowedArgument, Json.items?]

theorem exists_boundMember_iff {bounds : Bounds} {bound : String × Json} :
    (∃ next, boundMember bounds bound = .ok next) ↔
      (∃ comparator : Comparator, bound.1 = comparator.text) ∧ ∃ n, bound.2 = .number n := by
  obtain ⟨name, json⟩ := bound
  rw [boundMember, exists_bind_eq_ok, ← exists_comparator_iff]
  cases json with
  | number n => simp [Json.float?, pure, Except.pure]
  | _ => simp [Json.float?, throw, throwThe, MonadExceptOf.throw]

/-- Bounds are read one by one, and what is read of one is no obstacle to the next. -/
theorem exists_foldlM_boundMember_iff {bounds : List (String × Json)} {start : Bounds} :
    (∃ read, bounds.foldlM boundMember start = .ok read) ↔ ∀ bound ∈ bounds,
      (∃ comparator : Comparator, bound.1 = comparator.text) ∧ ∃ n, bound.2 = .number n := by
  induction bounds generalizing start with
  | nil => simp [pure, Except.pure]
  | cons bound rest ih =>
    rw [List.foldlM_cons, exists_bind_eq_ok]
    simp only [ih, exists_and_right, exists_boundMember_iff, List.forall_mem_cons]

theorem exists_boundsArgument_iff :
    (∃ bounds, boundsArgument keyword argument = .ok bounds) ↔
      ∃ bounds, argument = .object bounds ∧ ∀ bound ∈ bounds,
        (∃ comparator : Comparator, bound.1 = comparator.text) ∧ ∃ n, bound.2 = .number n := by
  cases argument with
  | object bounds => simpa [boundsArgument] using exists_foldlM_boundMember_iff
  | _ => simp [boundsArgument]

theorem exists_nameArgument_iff {name : Json} :
    (∃ text, nameArgument keyword name = .ok text) ↔ ∃ text, name = .string text := by
  cases name <;> simp [nameArgument, Json.text?]

theorem exists_mapM_nameArgument_iff {names : List Json} :
    (∃ texts, names.mapM (nameArgument keyword) = .ok texts) ↔
      ∀ name ∈ names, ∃ text, name = .string text := by
  induction names with
  | nil => simp [pure, Except.pure]
  | cons name rest ih =>
    rw [List.mapM_cons, exists_bind_eq_ok]
    simp only [exists_bind_eq_ok, pure, Except.pure, Except.ok.injEq, exists_eq', and_true, ih,
      exists_and_right, exists_nameArgument_iff, List.forall_mem_cons]

theorem exists_namesArgument_iff :
    (∃ names, namesArgument keyword argument = .ok names) ↔
      ∃ items, argument = .array items ∧ ∀ item ∈ items, ∃ name, item = .string name := by
  cases argument with
  | array items => simpa [namesArgument, Json.items?] using exists_mapM_nameArgument_iff
  | _ => simp [namesArgument, Json.items?]

theorem exists_fieldsOfMembers_iff {members : List (String × Json)} :
    (∃ fields, fieldsOfMembers members = .ok fields) ↔
      ∀ member ∈ members, member.2.Readable := by
  induction members with
  | nil => simp [fieldsOfMembers]
  | cons member rest ih =>
    rw [fieldsOfMembers, exists_bind_eq_ok]
    simp only [exists_bind_eq_ok, pure, Except.pure, Except.ok.injEq, exists_eq', and_true, ih,
      exists_and_right, List.forall_mem_cons, Json.Readable]

theorem exists_fieldsOfJson_iff :
    (∃ fields, fieldsOfJson keyword argument = .ok fields) ↔
      ∃ members, argument = .object members ∧ ∀ member ∈ members, member.2.Readable := by
  cases argument with
  | object members => simpa [fieldsOfJson] using exists_fieldsOfMembers_iff
  | _ => simp [fieldsOfJson]

theorem exists_alternativesOfItems_iff {items : List Json} {index : Nat} :
    (∃ alternatives, alternativesOfItems index items = .ok alternatives) ↔
      ∀ item ∈ items, item.Readable := by
  induction items generalizing index with
  | nil => simp [alternativesOfItems]
  | cons item rest ih =>
    rw [List.forall_mem_cons, ← @ih (index + 1), alternativesOfItems, Json.Readable]
    cases ofJson item with
    | ok alternative =>
      simp [exists_bind_eq_ok, pure, Except.pure]
    | error fault => simp

theorem exists_alternativesOfJson_iff :
    (∃ alternatives, alternativesOfJson keyword argument = .ok alternatives) ↔
      ∃ items, argument = .array items ∧ items ≠ [] ∧ ∀ item ∈ items, item.Readable := by
  cases argument with
  | array items =>
    cases items with
    | nil => simp [alternativesOfJson]
    | cons item rest =>
      have hitems := @exists_alternativesOfItems_iff (item :: rest) 0
      simpa [alternativesOfJson] using hitems
  | _ => simp [alternativesOfJson]

/-! ## Reading members -/

/-- Of an argument that holds no definition and cannot be null, the form matters alone. -/
theorem accepts_iff_of_fits {keyword : Keyword} {argument : Json} {P : Prop}
    (hfits : keyword.Fits argument ↔ P) (hbounds : keyword ≠ .bounds)
    (h : P → argument ≠ .null ∧ ∀ part, ¬ keyword.Part argument part) :
    keyword.Accepts argument ↔ P where
  mp haccepts := hfits.1 haccepts.fits
  mpr hP :=
    { fits := hfits.2 hP
      part := fun part hpart => absurd hpart ((h hP).2 part)
      null := fun hnull => absurd hnull (h hP).1
      bounds := fun heq => absurd heq hbounds }

theorem accepts_flag_iff {keyword : Keyword} {argument : Json}
    (h : keyword ∈ [Keyword.optional, .required, .strict]) :
    keyword.Accepts argument ↔ ∃ b, argument = .bool b := by
  simp only [List.mem_cons, List.not_mem_nil, or_false] at h
  refine accepts_iff_of_fits ?_ ?_ ?_
  · rcases h with rfl | rfl | rfl <;> rfl
  · rcases h with rfl | rfl | rfl <;> nofun
  · rintro ⟨b, rfl⟩
    refine ⟨nofun, fun part hpart => ?_⟩
    cases hpart
    simp at h

theorem accepts_type_iff {argument : Json} :
    Keyword.type.Accepts argument ↔ ∃ type : TypeName, argument = .string type.text := by
  refine accepts_iff_of_fits Iff.rfl nofun ?_
  rintro ⟨type, rfl⟩
  exact ⟨nofun, nofun⟩

theorem accepts_documents_iff {keyword : Keyword} {argument : Json}
    (h : keyword = .oneOf ∨ keyword = .enumeration) :
    keyword.Accepts argument ↔ ∃ items, argument = .array items := by
  refine accepts_iff_of_fits ?_ ?_ ?_
  · rcases h with rfl | rfl <;> rfl
  · rcases h with rfl | rfl <;> nofun
  · rintro ⟨items, rfl⟩
    refine ⟨nofun, fun part hpart => ?_⟩
    cases hpart <;> simp at h

theorem accepts_names_iff {keyword : Keyword} {argument : Json}
    (h : keyword = .require ∨ keyword = .restrict) : keyword.Accepts argument ↔
      ∃ items, argument = .array items ∧ ∀ item ∈ items, ∃ name, item = .string name := by
  refine accepts_iff_of_fits ?_ ?_ ?_
  · rcases h with rfl | rfl <;> rfl
  · rcases h with rfl | rfl <;> nofun
  · rintro ⟨items, rfl, -⟩
    refine ⟨nofun, fun part hpart => ?_⟩
    cases hpart <;> simp at h

theorem accepts_default (argument : Json) : Keyword.default.Accepts argument where
  fits := trivial
  part := by
    rintro part (⟨h, -⟩ | _)
    simp at h
  null := fun _ => rfl
  bounds := nofun

theorem accepts_fields_iff {keyword : Keyword} (h : keyword = .schema ∨ keyword = .properties)
    {argument : Json} : keyword.Accepts argument ↔
      ∃ members, argument = .object members ∧ ∀ member ∈ members, member.2.Readable := by
  constructor
  · rintro ⟨hfits, hpart, -, -⟩
    have hfits : ∃ members, argument = .object members := by
      rcases h with rfl | rfl
      · exact hfits
      · exact hfits
    obtain ⟨members, rfl⟩ := hfits
    exact ⟨members, rfl, fun member hmem => hpart _ (.field h hmem)⟩
  · rintro ⟨members, rfl, hreadable⟩
    have hpart : ∀ part, keyword.Part (.object members) part → part.Readable := by
      rintro part (⟨-, hmem⟩ | hnull)
      · exact hreadable _ hmem
      · simp at h
    rcases h with rfl | rfl
    · exact ⟨⟨members, rfl⟩, hpart, nofun, nofun⟩
    · exact ⟨⟨members, rfl⟩, hpart, nofun, nofun⟩

theorem accepts_items_iff {argument : Json} :
    Keyword.items.Accepts argument ↔ argument.Readable := by
  constructor
  · rintro ⟨-, hpart, hnull, -⟩
    exact hpart argument (.item fun heq => Keyword.noConfusion (hnull heq))
  · intro hreadable
    refine ⟨trivial, ?_, ?_, nofun⟩
    · rintro part (⟨h, -⟩ | hnull)
      · simp at h
      · exact hreadable
    · rintro rfl
      obtain ⟨_, ⟨⟩⟩ := hreadable

theorem accepts_either_iff {argument : Json} : Keyword.either.Accepts argument ↔
    ∃ items, argument = .array items ∧ items ≠ [] ∧ ∀ item ∈ items, item.Readable := by
  constructor
  · rintro ⟨⟨items, rfl, hne⟩, hpart, -, -⟩
    exact ⟨items, rfl, hne, fun item hmem => hpart item (.alternative hmem)⟩
  · rintro ⟨items, rfl, hne, hreadable⟩
    refine ⟨⟨items, rfl, hne⟩, ?_, nofun, nofun⟩
    rintro part (_ | _ | hmem)
    exact hreadable part hmem

theorem accepts_bounds_iff {argument : Json} : Keyword.bounds.Accepts argument ↔
    ∃ bounds, argument = .object bounds ∧ ∀ bound ∈ bounds,
      (∃ comparator : Comparator, bound.1 = comparator.text) ∧ ∃ n, bound.2 = .number n := by
  constructor
  · rintro ⟨⟨bounds, rfl, hfits⟩, -, -, hnull⟩
    refine ⟨bounds, rfl, fun bound hmem => ?_⟩
    obtain ⟨comparator, htext, hvalue⟩ := hfits bound hmem
    refine ⟨⟨comparator, htext⟩, hvalue.resolve_left fun heq => ?_⟩
    exact hnull rfl bounds rfl bound.1 (heq ▸ hmem)
  · rintro ⟨bounds, rfl, hread⟩
    refine ⟨⟨bounds, rfl, fun bound hmem => ?_⟩, ?_, nofun, ?_⟩
    · obtain ⟨⟨comparator, htext⟩, hnumber⟩ := hread bound hmem
      exact ⟨comparator, htext, .inr hnumber⟩
    · rintro part (⟨h, -⟩ | _)
      simp at h
    · rintro - _ ⟨⟩ comparator hmem
      obtain ⟨-, n, hn⟩ := hread _ hmem
      cases hn

/-- Whether a keyword declares fields. -/
def declaresFields : Keyword → Bool
  | .schema | .properties => true
  | _ => false

/-- Whether a keyword lists documents. -/
def listsDocuments : Keyword → Bool
  | .oneOf | .enumeration => true
  | _ => false

theorem legible_cons_iff {fields documents : Bool} {keyword : Keyword} {argument : Json}
    {rest : List (String × Json)} :
    Json.Legible fields documents ((keyword.text, argument) :: rest) ↔
      keyword.Accepts argument ∧ ¬ (fields ∧ declaresFields keyword) ∧
        ¬ (documents ∧ listsDocuments keyword) ∧
        Json.Legible (fields || declaresFields keyword) (documents || listsDocuments keyword)
          rest := by
  have haccepts : (∃ other : Keyword, keyword.text = other.text ∧ other.Accepts argument) ↔
      keyword.Accepts argument := by
    constructor
    · rintro ⟨other, htext, h⟩
      rwa [Keyword.text_injective htext]
    · exact fun h => ⟨keyword, rfl, h⟩
  rw [Json.legible_iff, Json.legible_iff, List.forall_mem_cons, haccepts, Entries.keys_cons]
  simp only [List.count_cons]
  cases keyword <;> cases fields <;> cases documents <;>
    simp [declaresFields, listsDocuments, Keyword.text, and_assoc] <;> omega

section Step

variable {rest : List (String × Json)} {α : Type} {read : Except DefinitionError α}

/-- Of what has been read it matters alone whether fields and documents are among it. -/
theorem exists_set_iff
    (hrest : ∀ {node : Node Definition}, (∃ last, nodeOfMembers node rest = .ok last) ↔
      Json.Legible node.schema.isSome node.allowed.isSome rest)
    (read : Except DefinitionError α) (set : α → Node Definition) (fields documents : Bool)
    (hset : ∀ a, (set a).schema.isSome = fields ∧ (set a).allowed.isSome = documents) :
    (∃ last, (do let a ← read; nodeOfMembers (set a) rest) = Except.ok last) ↔
      (∃ a, read = .ok a) ∧ Json.Legible fields documents rest := by
  rw [exists_bind_eq_ok, ← exists_and_right]
  refine exists_congr fun a => and_congr_right fun _ => ?_
  rw [hrest, (hset a).1, (hset a).2]

/-- A keyword that has one name only rules out none of the others. -/
theorem exists_unaliased_iff
    (hrest : ∀ {node : Node Definition}, (∃ last, nodeOfMembers node rest = .ok last) ↔
      Json.Legible node.schema.isSome node.allowed.isSome rest)
    {node : Node Definition} {keyword : Keyword} {argument : Json} (set : α → Node Definition)
    (hset : ∀ a, (set a).schema = node.schema ∧ (set a).allowed = node.allowed)
    (hfields : declaresFields keyword = false) (hdocuments : listsDocuments keyword = false)
    (hread : (∃ a, read = .ok a) ↔ keyword.Accepts argument) :
    (∃ last, (do let a ← read; nodeOfMembers (set a) rest) = Except.ok last) ↔
      keyword.Accepts argument ∧ ¬ (node.schema.isSome ∧ declaresFields keyword) ∧
        ¬ (node.allowed.isSome ∧ listsDocuments keyword) ∧
        Json.Legible (node.schema.isSome || declaresFields keyword)
          (node.allowed.isSome || listsDocuments keyword) rest := by
  rw [exists_set_iff hrest read set node.schema.isSome node.allowed.isSome
    fun a => ⟨by rw [(hset a).1], by rw [(hset a).2]⟩]
  simp [hfields, hdocuments, hread]

theorem not_exists_throw {fault : DefinitionError}
    {f : Node Definition → Except DefinitionError α} :
    ¬ ∃ last, (do let node ← throw fault; f node) = Except.ok last := by
  rintro ⟨last, ⟨⟩⟩

end Step

/-- **Members are read one by one**, and each is taken or not by itself, but for the two
names of a keyword. -/
theorem exists_nodeOfMembers_iff {members : List (String × Json)} {node : Node Definition} :
    (∃ read, nodeOfMembers node members = .ok read) ↔
      Json.Legible node.schema.isSome node.allowed.isSome members := by
  induction members generalizing node with
  | nil =>
    refine iff_of_true ⟨node, rfl⟩ ⟨nofun, ?_, ?_⟩
    · exact Bool.toNat_le _
    · exact Bool.toNat_le _
  | cons member rest ih =>
    obtain ⟨name, argument⟩ := member
    rw [nodeOfMembers]
    cases hkeyword : Keyword.ofText? name with
    | none =>
      refine iff_of_false (by rintro ⟨_, ⟨⟩⟩) fun h => ?_
      obtain ⟨keyword, rfl, -⟩ := h.accepts _ (List.mem_cons_self ..)
      rw [Keyword.ofText?_text] at hkeyword
      cases hkeyword
    | some keyword =>
      obtain rfl := Keyword.ofText?_eq_some_iff.1 hkeyword
      rw [legible_cons_iff]
      clear hkeyword
      cases keyword with
      | optional =>
        exact exists_unaliased_iff ih (fun b => { node with optional := b }) (fun _ => ⟨rfl, rfl⟩)
          rfl rfl (exists_boolArgument_iff.trans (accepts_flag_iff (by decide)).symm)
      | required =>
        exact exists_unaliased_iff ih (fun b => { node with required := some b })
          (fun _ => ⟨rfl, rfl⟩) rfl rfl
          (exists_boolArgument_iff.trans (accepts_flag_iff (by decide)).symm)
      | strict =>
        exact exists_unaliased_iff ih (fun b => { node with strict := some b })
          (fun _ => ⟨rfl, rfl⟩) rfl rfl
          (exists_boolArgument_iff.trans (accepts_flag_iff (by decide)).symm)
      | default =>
        -- The argument is taken as it is, so its reading is the argument itself.
        have hread : (∃ json, (Except.ok argument : Except DefinitionError Json) = .ok json) ↔
            Keyword.default.Accepts argument :=
          iff_of_true ⟨argument, rfl⟩ (accepts_default argument)
        exact exists_unaliased_iff ih (fun json => { node with fallback := some (.literal json) })
          (fun _ => ⟨rfl, rfl⟩) rfl rfl hread
      | type =>
        exact exists_unaliased_iff ih (fun type => { node with kind := some type })
          (fun _ => ⟨rfl, rfl⟩) rfl rfl (exists_typeArgument_iff.trans accepts_type_iff.symm)
      | schema | properties =>
        simp only
        split
        · next hsome => exact iff_of_false not_exists_throw fun h => h.2.1 ⟨hsome, rfl⟩
        · next hnone =>
          refine (exists_set_iff ih _
            (fun fields => { node with schema := some (.declared fields) }) true
            node.allowed.isSome fun _ => ⟨rfl, rfl⟩).trans ?_
          rw [exists_fieldsOfJson_iff, accepts_fields_iff (by decide)]
          simp [declaresFields, listsDocuments, hnone]
      | items =>
        exact exists_unaliased_iff ih (fun item => { node with items := some item })
          (fun _ => ⟨rfl, rfl⟩) rfl rfl accepts_items_iff.symm
      | oneOf | enumeration =>
        simp only
        split
        · next hsome => exact iff_of_false not_exists_throw fun h => h.2.2.1 ⟨hsome, rfl⟩
        · next hnone =>
          refine (exists_set_iff ih _ (fun documents => { node with allowed := some documents })
            node.schema.isSome true fun _ => ⟨rfl, rfl⟩).trans ?_
          rw [exists_allowedArgument_iff, accepts_documents_iff (by decide)]
          simp [declaresFields, listsDocuments, hnone]
      | bounds =>
        exact exists_unaliased_iff ih (fun bounds => { node with bounds := some bounds })
          (fun _ => ⟨rfl, rfl⟩) rfl rfl (exists_boundsArgument_iff.trans accepts_bounds_iff.symm)
      | either =>
        exact exists_unaliased_iff ih
          (fun alternatives => { node with either := some alternatives }) (fun _ => ⟨rfl, rfl⟩)
          rfl rfl
          (exists_alternativesOfJson_iff.trans accepts_either_iff.symm)
      | require =>
        exact exists_unaliased_iff ih (fun names => { node with require := some names })
          (fun _ => ⟨rfl, rfl⟩) rfl rfl
          (exists_namesArgument_iff.trans (accepts_names_iff (by decide)).symm)
      | restrict =>
        exact exists_unaliased_iff ih (fun names => { node with restrict := some names })
          (fun _ => ⟨rfl, rfl⟩) rfl rfl
          (exists_namesArgument_iff.trans (accepts_names_iff (by decide)).symm)
      | custom => exact iff_of_false not_exists_throw fun h => h.1.fits

/-! ## Fields -/

/-- The fields of a node are those of one of the members, or were there before. -/
theorem declared_nodeOfMembers {members : List (String × Json)} {node last : Node Definition}
    {fields : List (String × Definition)} (h : nodeOfMembers node members = .ok last)
    (hlast : last.schema = some (.declared fields)) :
    node.schema = some (.declared fields) ∨
      ∃ member ∈ members, fieldsOfJson member.1 member.2 = .ok fields := by
  induction members generalizing node with
  | nil =>
    rw [nodeOfMembers] at h
    cases h
    exact .inl hlast
  | cons member rest ih =>
    obtain ⟨name, argument⟩ := member
    rw [nodeOfMembers] at h
    have hnext : ∀ {next : Node Definition}, next.schema = node.schema →
        nodeOfMembers next rest = .ok last → node.schema = some (.declared fields) ∨
          ∃ member ∈ (name, argument) :: rest, fieldsOfJson member.1 member.2 = .ok fields := by
      intro next hschema hrest
      rcases ih hrest with hsome | ⟨member, hmem, hread⟩
      · exact .inl (hschema ▸ hsome)
      · exact .inr ⟨member, List.mem_cons_of_mem _ hmem, hread⟩
    cases hkeyword : Keyword.ofText? name with
    | none => rw [hkeyword] at h; cases h
    | some keyword =>
      rw [hkeyword] at h
      cases keyword with
      | optional | required | strict | type | items | bounds | either | require | restrict =>
        obtain ⟨_, -, h⟩ := bind_eq_ok h
        refine hnext ?_ h
        rfl
      | default =>
        refine hnext ?_ h
        rfl
      | schema | properties =>
        simp only at h
        split at h
        · cases h
        · obtain ⟨declared, hargument, h⟩ := bind_eq_ok h
          -- Fields that are declared here stay, or the reading ends at others.
          rcases ih h with hsome | ⟨member, hmem, hread⟩
          · cases hsome
            exact .inr ⟨_, List.mem_cons_self, hargument⟩
          · exact .inr ⟨member, List.mem_cons_of_mem _ hmem, hread⟩
      | oneOf | enumeration =>
        simp only at h
        split at h
        · cases h
        · obtain ⟨_, -, h⟩ := bind_eq_ok h
          refine hnext ?_ h
          rfl
      | custom => cases h

theorem keys_fieldsOfMembers {members : List (String × Json)}
    {fields : List (String × Definition)} (h : fieldsOfMembers members = .ok fields) :
    Entries.keys fields = Entries.keys members := by
  induction members generalizing fields with
  | nil =>
    rw [fieldsOfMembers] at h
    cases h
    rfl
  | cons member rest ih =>
    obtain ⟨name, json⟩ := member
    rw [fieldsOfMembers] at h
    obtain ⟨definition, -, h⟩ := bind_eq_ok h
    obtain ⟨others, hothers, h⟩ := bind_eq_ok h
    cases h
    rw [Entries.keys_cons, Entries.keys_cons, ih hothers]

/-- **No field is declared twice** in a definition that has been read. -/
theorem nodup_fields_ofJson {json : Json} {keywords : Node Definition}
    {fields : List (String × Definition)} (h : ofJson json = .ok (.node keywords))
    (hdistinct : json.Distinct) (hschema : keywords.schema = some (.declared fields)) :
    (Entries.keys fields).Nodup := by
  cases json with
  | string name =>
    rw [ofJson] at h
    obtain ⟨type, -, htype⟩ := bind_eq_ok h
    cases htype
  | object members =>
    rw [ofJson] at h
    obtain ⟨_, hread, hnode⟩ := bind_eq_ok h
    cases hnode
    cases hdistinct with
    | object _ hmembers =>
      rcases declared_nodeOfMembers hread hschema with hsome | ⟨⟨name, argument⟩, hmem, hfields⟩
      · cases hsome
      · have hargument := hmembers _ hmem
        cases argument with
        | object inner =>
          cases hargument with
          | object hnodup _ =>
            rw [keys_fieldsOfMembers hfields]
            exact hnodup
        | _ => simp [fieldsOfJson] at hfields
  | _ => simp [ofJson] at h

end Definition

/-! ## Reading documents -/

namespace Json

variable {members : List (String × Json)}

theorem readable_string_iff {name : String} :
    (Json.string name).Readable ↔ ∃ type : TypeName, name = type.text := by
  unfold Readable
  rw [Definition.ofJson]
  refine Definition.exists_bind_eq_ok.trans ?_
  rw [← Definition.exists_ofText_iff]
  exact ⟨fun ⟨type, htype, _⟩ => ⟨type, htype⟩, fun ⟨type, htype⟩ => ⟨type, htype, _, rfl⟩⟩

theorem count_add_le_one_iff {names : List String} (hnodup : names.Nodup) {first second : String} :
    names.count first + names.count second ≤ 1 ↔ ¬ (first ∈ names ∧ second ∈ names) := by
  have hcount : ∀ name, names.count name ≤ 1 ∧ (0 < names.count name ↔ name ∈ names) :=
    fun name => ⟨List.nodup_iff_count_le_one.1 hnodup name, List.count_pos_iff⟩
  rw [← (hcount first).2, ← (hcount second).2]
  have := (hcount first).1
  have := (hcount second).1
  omega

/-- **What the reader asks of an object**: members that fit, parts that can be read, and
that it is tidy. -/
theorem readable_object_iff (hnodup : (Entries.keys members).Nodup) :
    (Json.object members).Readable ↔
      (∀ member ∈ members, ∃ keyword : Keyword, member.1 = keyword.text ∧
        (member.2 = .null ∨ keyword.Fits member.2)) ∧
      (∀ (keyword : Keyword) argument part, (keyword.text, argument) ∈ members →
        keyword.Part argument part → part.Readable) ∧ Tidy members := by
  have hread : (Json.object members).Readable ↔ Legible false false members := by
    unfold Readable
    rw [Definition.ofJson]
    refine Definition.exists_bind_eq_ok.trans ?_
    refine Iff.trans ?_ (@Definition.exists_nodeOfMembers_iff members {})
    exact ⟨fun ⟨read, h, _⟩ => ⟨read, h⟩, fun ⟨read, h⟩ => ⟨read, h, _, rfl⟩⟩
  rw [hread]
  constructor
  · intro h
    have haccepts : ∀ {keyword : Keyword} {argument : Json}, (keyword.text, argument) ∈ members →
        keyword.Accepts argument := by
      intro keyword argument hmem
      obtain ⟨other, htext, haccepts⟩ := h.accepts _ hmem
      rwa [Keyword.text_injective htext]
    refine ⟨fun member hmem => ?_, fun keyword argument part hmem => (haccepts hmem).part part,
      fun name hmem => ?_, fun bounds hmem => (haccepts hmem).bounds rfl bounds rfl,
      fun hboth => ?_, fun hboth => ?_⟩
    · obtain ⟨keyword, htext, haccepts⟩ := h.accepts _ hmem
      exact ⟨keyword, htext, .inr haccepts.fits⟩
    · obtain ⟨keyword, htext, haccepts⟩ := h.accepts _ hmem
      rw [← haccepts.null rfl]
      exact htext
    · exact (count_add_le_one_iff hnodup).1 (by simpa using h.fields) hboth
    · exact (count_add_le_one_iff hnodup).1 (by simpa using h.documents) hboth
  · rintro ⟨hfits, hpart, htidy⟩
    refine ⟨fun member hmem => ?_, ?_, ?_⟩
    · obtain ⟨name, argument⟩ := member
      obtain ⟨keyword, rfl, hargument⟩ := hfits _ hmem
      have hnull : argument = .null → keyword = .default := by
        rintro rfl
        exact Keyword.text_injective (htidy.arguments _ hmem)
      refine ⟨keyword, rfl, ?_, fun part => hpart keyword argument part hmem, hnull, ?_⟩
      · rcases hargument with heq | hargument
        · rw [hnull heq]
          trivial
        · exact hargument
      · rintro rfl bounds rfl
        exact htidy.bounds bounds hmem
    · simpa using (count_add_le_one_iff hnodup).2 htidy.fields
    · simpa using (count_add_le_one_iff hnodup).2 htidy.documents

/-- **A document can be read** exactly when it is laid out as a definition and is tidy at
every place of a definition. -/
theorem readable_iff (json : Json) (hdistinct : json.Distinct) :
    json.Readable ↔
      json.IsDefinition ∧ ∀ members, Position json (.object members) → Tidy members := by
  cases json with
  | string name =>
    rw [readable_string_iff]
    constructor
    · rintro ⟨type, rfl⟩
      exact ⟨.type type, nofun⟩
    · rintro ⟨⟨type⟩, -⟩
      exact ⟨type, rfl⟩
  | object members =>
    obtain ⟨hnodup, hmembers⟩ : (Entries.keys members).Nodup ∧
        ∀ member ∈ members, member.2.Distinct := by
      cases hdistinct
      exact ⟨‹_›, ‹_›⟩
    have hpart : ∀ (keyword : Keyword) argument part, (keyword.text, argument) ∈ members →
        keyword.Part argument part → (part.Readable ↔ part.IsDefinition ∧
          ∀ members, Position part (.object members) → Tidy members) := by
      intro keyword argument part hmem hpart
      have hsize := hpart.sizeOf_le
      have hargument := List.sizeOf_lt_of_mem hmem
      have hdistinct := hpart.distinct (hmembers _ hmem)
      exact readable_iff part hdistinct
    rw [readable_object_iff hnodup]
    constructor
    · rintro ⟨hfits, hparts, htidy⟩
      refine ⟨.keywords hfits fun keyword argument part hmem h =>
        ((hpart keyword argument part hmem h).1 (hparts keyword argument part hmem h)).1, ?_⟩
      rintro other (_ | ⟨hmem, h, hposition⟩)
      · exact htidy
      · exact ((hpart _ _ _ hmem h).1 (hparts _ _ _ hmem h)).2 other hposition
    · rintro ⟨_ | ⟨hfits, hparts⟩, htidy⟩
      exact ⟨hfits, fun keyword argument part hmem h => (hpart keyword argument part hmem h).2
        ⟨hparts keyword argument part hmem h, fun other hposition =>
          htidy other (.part hmem h hposition)⟩, htidy members .root⟩
  | _ =>
    refine iff_of_false ?_ ?_
    · rintro ⟨_, ⟨⟩⟩
    · rintro ⟨⟨⟩, -⟩
termination_by sizeOf json
decreasing_by
  subst_vars
  simp at *
  omega

end Json

end Conform
