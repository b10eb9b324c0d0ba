import Mathlib.Logic.Basic
import Conform.JsonSchema.Project
import Conform.Proofs.Value.Entries

/-!
# Documents valid against schemas

A document is valid against a schema if it is as each keyword of the schema demands.  The
keywords here are those that the schemas of definitions are written in; any other keyword,
and a keyword whose argument is not of the form that it should be, demands nothing.

A keyword speaks of documents of one kind alone, and demands nothing of others: bounds of
numbers, `items` of arrays, and `properties`, `required` and `additionalProperties` of
objects.  What further properties may be like hangs on which are named beside it.

## Main definitions

* `Json.same`: equality of documents.
* `JsonSchema.accepts`: documents valid against a schema.
* `Node.schemaMembers`: the members of the schema of a node.
* `Node.Allows`: what the schema of a node demands, keyword by keyword.

## Main results

* `JsonSchema.accepts_schemaMembers_iff`: the schema of a node demands what its keywords do.
-/

namespace Conform

namespace Json

mutual

/-- Equality of documents: of numbers as doubles, of objects whatever the order of their
members. -/
def same : Json → Json → Bool
  | .null, .null => true
  | .bool b, .bool c => b == c
  | .number m, .number n => m.toFloat == n.toFloat
  | .string s, .string t => s == t
  | .array items, .array others => sameItems items others
  | .object members, .object others =>
    members.length == others.length && sameMembers members others
  | _, _ => false

/-- Equality of items one by one. -/
def sameItems : List Json → List Json → Bool
  | [], [] => true
  | item :: items, other :: others => same item other && sameItems items others
  | _, _ => false

/-- Equality of members with those of the same names. -/
def sameMembers : List (String × Json) → Entries Json → Bool
  | [], _ => true
  | (name, member) :: members, others =>
    (match others.get? name with
      | some other => same member other
      | none => false) && sameMembers members others

end

/-- The members of an object; other documents have none. -/
def members : Json → Entries Json
  | .object members => members
  | _ => []

end Json

/-- The documents that the schema of a type allows. -/
def TypeName.Allows (json : Json) : TypeName → Prop
  | .function => True
  | .dateTime => json.kind = "string"
  | kind => json.kind = kind.text

namespace JsonSchema

/-! ## Validity -/

/-- What the keywords without schemas in their arguments demand. -/
def assertion (keyword : String) (argument json : Json) : Bool :=
  match keyword, argument, json with
  | "type", .string kind, json => json.kind == kind
  | "enum", .array documents, json => documents.any fun document => document.same json
  | "required", .array names, .object members =>
    names.all fun name => name.text?.all fun name => (Entries.get? members name).isSome
  | "minimum", .number bound, .number n => bound.toFloat ≤ n.toFloat
  | "exclusiveMinimum", .number bound, .number n => bound.toFloat < n.toFloat
  | "maximum", .number bound, .number n => n.toFloat ≤ bound.toFloat
  | "exclusiveMaximum", .number bound, .number n => n.toFloat < bound.toFloat
  | _, _, _ => true

/-- The names of the properties that have schemas of their own. -/
def propertyNames (keywords : Entries Json) : List String :=
  ((keywords.get? "properties").getD .null).members.keys

mutual

/-- Whether a document is valid against a schema. -/
def accepts : Json → Json → Bool
  | .bool b, _ => b
  | .object keywords, json => acceptsAll (propertyNames keywords) keywords json
  | _, _ => true
termination_by structural schema => schema

/-- Whether a document is as all keywords demand, beside schemas for properties of the
given names. -/
def acceptsAll (named : List String) : List (String × Json) → Json → Bool
  | [], _ => true
  | (keyword, argument) :: rest, json =>
    (if keyword = "properties" then acceptsProperties argument json.members
      else if keyword = "items" then (json.items?.getD []).all fun item => accepts argument item
      else if keyword = "additionalProperties" then
        json.members.all fun member => named.contains member.1 || accepts argument member.2
      else assertion keyword argument json) && acceptsAll named rest json
termination_by structural keywords => keywords

/-- Whether members are valid against the schemas for properties of their names. -/
def acceptsProperties : Json → Entries Json → Bool
  | .object schemas, members => acceptsNamed schemas members
  | _, _ => true
termination_by structural schemas => schemas

/-- Whether members are valid against the schemas of their names, one by one. -/
def acceptsNamed : List (String × Json) → Entries Json → Bool
  | [], _ => true
  | (name, schema) :: rest, members =>
    (match members.get? name with
      | some json => accepts schema json
      | none => true) && acceptsNamed rest members
termination_by structural schemas => schemas

end

/-! ## The schema of a node -/

section Members

variable {named : List String} {json : Json}

theorem acceptsAll_append (xs ys : List (String × Json)) :
    acceptsAll named (xs ++ ys) json = (acceptsAll named xs json && acceptsAll named ys json) := by
  induction xs with
  | nil => rw [acceptsAll, Bool.true_and]; rfl
  | cons member rest ih =>
    obtain ⟨keyword, argument⟩ := member
    rw [List.cons_append, acceptsAll, acceptsAll, ih, Bool.and_assoc]

theorem acceptsNamed_iff {schemas : List (String × Json)} {members : Entries Json} :
    acceptsNamed schemas members = true ↔
      ∀ property ∈ schemas, ∀ part, members.get? property.1 = some part →
        accepts property.2 part = true := by
  induction schemas with
  | nil => simp [acceptsNamed]
  | cons property rest ih =>
    obtain ⟨name, schema⟩ := property
    rw [acceptsNamed, Bool.and_eq_true, ih, List.forall_mem_cons]
    refine and_congr ?_ Iff.rfl
    cases members.get? name <;> simp

theorem acceptsAll_nil : acceptsAll named [] json = true := by
  rw [acceptsAll]

/-- A keyword without schemas in its argument demands what it asserts. -/
theorem acceptsAll_cons_iff {keyword : String} {argument : Json}
    (h : keyword ∉ ["properties", "items", "additionalProperties"]) (rest : List (String × Json)) :
    acceptsAll named ((keyword, argument) :: rest) json = true ↔
      assertion keyword argument json = true ∧ acceptsAll named rest json = true := by
  simp only [List.mem_cons, List.not_mem_nil, or_false, not_or] at h
  rw [acceptsAll, if_neg h.1, if_neg h.2.1, if_neg h.2.2, Bool.and_eq_true]

theorem acceptsAll_singleton_iff {keyword : String} {argument : Json}
    (h : keyword ∉ ["properties", "items", "additionalProperties"]) :
    acceptsAll named [(keyword, argument)] json = true ↔ assertion keyword argument json = true :=
  (acceptsAll_cons_iff h []).trans (and_iff_left acceptsAll_nil)

theorem acceptsAll_typeMembers (kind? : Option TypeName) :
    acceptsAll named (typeMembers kind?) json = true ↔
      ∀ kind, kind? = some kind → kind.Allows json := by
  rcases kind? with _ | kind
  · exact iff_of_true acceptsAll_nil nofun
  · have hkind : (∀ other, some kind = some other → other.Allows json) ↔ kind.Allows json :=
      ⟨fun h => h kind rfl, fun h _ heq => Option.some.inj heq ▸ h⟩
    rw [hkind]
    cases kind with
    | function => exact iff_of_true acceptsAll_nil trivial
    | dateTime =>
      -- A moment is a string of some format, and formats assert nothing.
      refine (acceptsAll_cons_iff (by decide) _).trans ?_
      rw [acceptsAll_singleton_iff (by decide)]
      exact (and_iff_left rfl).trans beq_iff_eq
    | _ => exact (acceptsAll_singleton_iff (by decide)).trans beq_iff_eq

/-- What a bound demands, if it is finite. -/
theorem assertion_boundName_iff (comparator : Comparator) (bound : Float) :
    assertion (boundName comparator) (.ofReal bound) json = true ↔
      ∀ n, json = .number n → bound.isFinite = true →
        comparator.holds n.toFloat bound = true := by
  unfold Json.ofReal
  split
  · next hfinite =>
    cases json with
    | number n =>
      have hnumber : (∀ m, Json.number n = .number m → bound.isFinite = true →
          comparator.holds m.toFloat bound = true) ↔ comparator.holds n.toFloat bound = true :=
        ⟨fun h => h n rfl hfinite, fun h _ heq _ => Json.number.inj heq ▸ h⟩
      rw [hnumber]
      cases comparator <;> rfl
    | _ => cases comparator <;> exact iff_of_true rfl nofun
  · next hinfinite =>
    -- A bound that is not finite is written as null, which is no bound.
    refine iff_of_true ?_ fun _ _ hfinite => absurd hfinite hinfinite
    cases comparator <;> rfl

theorem acceptsAll_boundMembers (bounds : Bounds) :
    acceptsAll named (boundMembers bounds) json = true ↔
      ∀ n, json = .number n → ∀ comparator bound, bounds.get? comparator = some bound →
        bound.isFinite = true → comparator.holds n.toFloat bound = true := by
  have hlist : ∀ pairs : List (Comparator × Float),
      acceptsAll named (pairs.map fun pair => (boundName pair.1, Json.ofReal pair.2)) json = true ↔
        ∀ pair ∈ pairs, ∀ n, json = .number n → pair.2.isFinite = true →
          pair.1.holds n.toFloat pair.2 = true := by
    intro pairs
    induction pairs with
    | nil => exact iff_of_true acceptsAll_nil (List.forall_mem_nil _)
    | cons pair rest ih =>
      have hname : boundName pair.1 ∉ ["properties", "items", "additionalProperties"] := by
        cases pair.1 <;> decide
      rw [List.map_cons, acceptsAll_cons_iff hname, ih, assertion_boundName_iff,
        List.forall_mem_cons]
  refine (hlist bounds.toList).trans ?_
  constructor
  · intro h n hn comparator bound hbound
    exact h (comparator, bound) (Bounds.mem_toList_iff.2 hbound) n hn
  · rintro h ⟨comparator, bound⟩ hmem n hn
    exact h n hn comparator bound (Bounds.mem_toList_iff.1 hmem)

end Members

end JsonSchema

namespace Node

open JsonSchema

variable {δ : Type} (node : Node δ) (properties? : Option (Entries Json)) (items? : Option Json)

/-- The members of the schema of a node, given the schemas of its fields and of its items. -/
def schemaMembers : List (String × Json) :=
  typeMembers node.kind ++
  (node.allowed.map fun allowed => ("enum", .array allowed)).toList ++
  (node.require.map fun names => ("required", .array (names.map Json.string))).toList ++
  (properties?.map fun schemas => ("properties", .object schemas)).toList ++
  (items?.map fun schema => (itemsName node.kind, schema)).toList ++
  (if node.strict = some true ∧ ¬(items?.isSome ∧ node.kind = some .object) then
    [("additionalProperties", .bool false)] else []) ++
  (node.bounds.map boundMembers).getD [] ++
  (node.fallback.map defaultMembers).getD []

/-- What the schema of a node demands of a document, keyword by keyword. -/
structure Allows (json : Json) : Prop where
  kind : ∀ kind, node.kind = some kind → kind.Allows json
  allowed : ∀ documents, node.allowed = some documents → ∃ document ∈ documents,
    document.same json = true
  require : ∀ names, node.require = some names → ∀ members, json = .object members →
    ∀ name ∈ names, name ∈ Entries.keys members
  properties : ∀ schemas, properties? = some schemas → ∀ property ∈ schemas, ∀ part,
    json.members.get? property.1 = some part → accepts property.2 part = true
  items : ∀ schema, items? = some schema → node.kind ≠ some .object → ∀ items,
    json = .array items → ∀ item ∈ items, accepts schema item = true
  entries : ∀ schema, items? = some schema → node.kind = some .object →
    ∀ member ∈ json.members, member.1 ∉ (properties?.getD []).keys → accepts schema member.2 = true
  closed : node.strict = some true → ¬(items?.isSome ∧ node.kind = some .object) →
    ∀ member ∈ json.members, member.1 ∈ (properties?.getD []).keys
  bounds : ∀ bounds, node.bounds = some bounds → ∀ n, json = .number n → ∀ comparator bound,
    bounds.get? comparator = some bound → bound.isFinite = true →
      comparator.holds n.toFloat bound = true

variable {node properties? items?}

/-- What the parts of a node have been made is not asked. -/
theorem allows_map_iff {ε : Type} {f : δ → ε} {json : Json} :
    (node.map f).Allows properties? items? json ↔ node.Allows properties? items? json :=
  ⟨fun ⟨kind, allowed, require, properties, items, entries, closed, bounds⟩ =>
    ⟨kind, allowed, require, properties, items, entries, closed, bounds⟩,
   fun ⟨kind, allowed, require, properties, items, entries, closed, bounds⟩ =>
    ⟨kind, allowed, require, properties, items, entries, closed, bounds⟩⟩

/-! ### Keyword by keyword -/

/-- The schemas for properties are those of the fields: no other keyword is written like it. -/
theorem get?_properties_schemaMembers :
    Entries.get? (node.schemaMembers properties? items?) "properties" =
      properties?.map .object := by
  have htype : Entries.get? (typeMembers node.kind) "properties" = none := by
    rcases node.kind with _ | kind
    · rfl
    · cases kind <;> rfl
  have hallowed : Entries.get? (node.allowed.map fun allowed => ("enum", Json.array allowed)).toList
      "properties" = none := by
    cases node.allowed <;> rfl
  have hrequire : Entries.get? (node.require.map fun names =>
      ("required", Json.array (names.map Json.string))).toList "properties" = none := by
    cases node.require <;> rfl
  have hitems : Entries.get? (items?.map fun schema => (itemsName node.kind, schema)).toList
      "properties" = none := by
    unfold itemsName
    cases items? <;> split <;> rfl
  have hclosed : ∀ closed : Prop, [Decidable closed] → Entries.get?
      (if closed then [("additionalProperties", Json.bool false)] else []) "properties" = none := by
    intro closed _
    split <;> rfl
  have hbounds : Entries.get? ((node.bounds.map boundMembers).getD []) "properties" = none := by
    cases node.bounds with
    | none => rfl
    | some bounds =>
      simp only [Option.map_some, Option.getD_some, boundMembers]
      induction bounds.toList with
      | nil => rfl
      | cons bound rest ih =>
        obtain ⟨comparator, bound⟩ := bound
        cases comparator <;> exact ih
  have hfallback : Entries.get? ((node.fallback.map defaultMembers).getD []) "properties" =
      none := by
    rcases node.fallback with _ | (literal | produced) <;> rfl
  simp only [schemaMembers, Entries.get?_append, htype, hallowed, hrequire, hitems, hclosed,
    hbounds, hfallback, Option.none_or, Option.or_none]
  cases properties? <;> rfl

section Pieces

variable {named : List String} {json : Json}

theorem acceptsAll_allowed_iff (allowed? : Option (List Json)) :
    acceptsAll named (allowed?.map fun allowed => ("enum", Json.array allowed)).toList json = true ↔
      ∀ documents, allowed? = some documents → ∃ document ∈ documents,
        document.same json = true := by
  cases allowed? with
  | none => exact iff_of_true acceptsAll_nil nofun
  | some documents =>
    refine (acceptsAll_singleton_iff (by decide)).trans ?_
    simp [assertion]

theorem acceptsAll_require_iff (require? : Option (List String)) :
    acceptsAll named (require?.map fun names =>
      ("required", Json.array (names.map Json.string))).toList json = true ↔
      ∀ names, require? = some names → ∀ members, json = .object members →
        ∀ name ∈ names, name ∈ Entries.keys members := by
  cases require? with
  | none => exact iff_of_true acceptsAll_nil nofun
  | some names =>
    refine (acceptsAll_singleton_iff (by decide)).trans ?_
    cases json with
    | object members =>
      simp only [assertion, List.all_map, List.all_eq_true, Function.comp_apply, Json.text?,
        Option.all_some, Entries.isSome_get?_iff, Option.some.injEq, Json.object.injEq,
        forall_eq']
    | _ => exact iff_of_true rfl nofun

theorem acceptsAll_properties_iff (properties? : Option (Entries Json)) :
    acceptsAll named (properties?.map fun schemas => ("properties", Json.object schemas)).toList
        json = true ↔
      ∀ schemas, properties? = some schemas → ∀ property ∈ schemas, ∀ part,
        json.members.get? property.1 = some part → accepts property.2 part = true := by
  cases properties? with
  | none => exact iff_of_true acceptsAll_nil nofun
  | some schemas =>
    rw [Option.map_some, Option.toList_some, acceptsAll, if_pos rfl, acceptsAll_nil, Bool.and_true,
      acceptsProperties, acceptsNamed_iff]
    simp

theorem acceptsAll_items_iff (kind? : Option TypeName) (items? : Option Json) :
    acceptsAll named (items?.map fun schema => (itemsName kind?, schema)).toList json = true ↔
      (∀ schema, items? = some schema → kind? ≠ some .object → ∀ items, json = .array items →
        ∀ item ∈ items, accepts schema item = true) ∧
      ∀ schema, items? = some schema → kind? = some .object → ∀ member ∈ json.members,
        member.1 ∉ named → accepts schema member.2 = true := by
  cases items? with
  | none => exact iff_of_true acceptsAll_nil ⟨nofun, nofun⟩
  | some schema =>
    rw [Option.map_some, Option.toList_some, acceptsAll, acceptsAll_nil, Bool.and_true]
    by_cases hkind : kind? = some .object
    · rw [itemsName, if_pos hkind, if_neg (by decide), if_neg (by decide), if_pos rfl]
      simp [hkind, ← or_iff_not_imp_left]
    · rw [itemsName, if_neg hkind, if_neg (by decide), if_pos rfl]
      cases json <;> simp [hkind, Json.items?]

theorem acceptsAll_closed_iff (closed : Prop) [Decidable closed] :
    acceptsAll named (if closed then [("additionalProperties", .bool false)] else []) json = true ↔
      (closed → ∀ member ∈ json.members, member.1 ∈ named) := by
  by_cases hclosed : closed
  · rw [if_pos hclosed, acceptsAll, if_neg (by decide), if_neg (by decide), if_pos rfl,
      acceptsAll_nil, Bool.and_true]
    simp [accepts, hclosed]
  · rw [if_neg hclosed]
    exact iff_of_true acceptsAll_nil fun h => absurd h hclosed

theorem acceptsAll_fallback (fallback? : Option Fallback) :
    acceptsAll named ((fallback?.map defaultMembers).getD []) json = true := by
  rcases fallback? with _ | (literal | code)
  · exact acceptsAll_nil
  · exact (acceptsAll_singleton_iff (by decide)).2 rfl
  · exact acceptsAll_nil

end Pieces

/-- **The schema of a node demands what its keywords do.** -/
theorem accepts_schemaMembers_iff {json : Json} :
    accepts (.object (node.schemaMembers properties? items?)) json = true ↔
      node.Allows properties? items? json := by
  have hbounds : acceptsAll (properties?.getD []).keys
      ((node.bounds.map boundMembers).getD []) json = true ↔
      ∀ bounds, node.bounds = some bounds → ∀ n, json = .number n → ∀ comparator bound,
        bounds.get? comparator = some bound → bound.isFinite = true →
          comparator.holds n.toFloat bound = true := by
    cases node.bounds with
    | none => exact iff_of_true acceptsAll_nil nofun
    | some bounds =>
      refine (acceptsAll_boundMembers bounds).trans ⟨fun h _ heq => ?_, fun h => h bounds rfl⟩
      exact Option.some.inj heq ▸ h
  have hnamed : propertyNames (node.schemaMembers properties? items?) =
      (properties?.getD []).keys := by
    rw [propertyNames, get?_properties_schemaMembers]
    cases properties? <;> rfl
  rw [accepts, hnamed, schemaMembers]
  simp only [acceptsAll_append, Bool.and_eq_true, acceptsAll_typeMembers, acceptsAll_allowed_iff,
    acceptsAll_require_iff, acceptsAll_properties_iff, acceptsAll_items_iff, acceptsAll_closed_iff,
    hbounds, acceptsAll_fallback, and_true]
  constructor
  · rintro ⟨⟨⟨⟨⟨⟨kind, allowed⟩, require⟩, properties⟩, items, entries⟩, closed⟩, bounds⟩
    exact ⟨kind, allowed, require, properties, items, entries, fun hs hn => closed ⟨hs, hn⟩, bounds⟩
  · rintro ⟨kind, allowed, require, properties, items, entries, closed, bounds⟩
    exact ⟨⟨⟨⟨⟨⟨kind, allowed⟩, require⟩, properties⟩, items, entries⟩, fun h => closed h.1 h.2⟩,
      bounds⟩

end Node

end Conform
