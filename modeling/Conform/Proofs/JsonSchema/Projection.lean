import Mathlib.Logic.Basic
import Conform.Proofs.Definition.Met
import Conform.Proofs.JsonSchema.Validity
import Conform.Proofs.Value.Alike

/-!
# What projections come to

A projection leaves it as it is whether a deferred part is being expanded, so it can be
judged by what it comes to inside of an expansion and outside.  The schema of a node has the
schemas of its fields and of its items in it, whatever they are.

## Main definitions

* `JsonSchema.fieldSchemas`, `JsonSchema.itemSchema`: the steps of the projection of a node.
* `JsonSchema.expandedFields`: the first step where the fields are deferred.
* `JsonSchema.Projection.Yields`: what a projection comes to, inside or outside.

## Main results

* `JsonSchema.Projection.Yields.ofNode`: the schema of a node, by those of its parts.
-/

namespace Conform

namespace JsonSchema

variable {σ α β δ : Type}

/-! ## The two steps of a node -/

/-- The schemas of the fields of a node, where there are any. -/
def fieldSchemas (deferred : Code → Projection σ (Option Json)) :
    Option (Fields (Projection σ Json)) → Projection σ (Option Json)
  | none => pure none
  | some (.declared fields) => some <$> properties fields
  | some (.deferred code) => deferred code

/-- The schema of the items of a node, if there is one. -/
def itemSchema : Option (Projection σ Json) → Projection σ (Option Json)
  | none => pure none
  | some items => some <$> items

/-- The schema of a node is made of those of its fields and of its items. -/
theorem ofNode_eq (deferred : Code → Projection σ (Option Json)) (node : Node (Projection σ Json)) :
    ofNode deferred node = (do
      let properties? ← fieldSchemas deferred node.schema
      let items? ← itemSchema node.items
      return .object <|
        typeMembers node.kind ++
        (node.allowed.map fun allowed => ("enum", .array allowed)).toList ++
        (node.require.map fun names => ("required", .array (names.map Json.string))).toList ++
        (properties?.map fun json => ("properties", json)).toList ++
        (items?.map fun json => (itemsName node.kind, json)).toList ++
        (if node.strict = some true ∧ ¬(items?.isSome ∧ node.kind = some .object) then
          [("additionalProperties", .bool false)] else []) ++
        (node.bounds.map boundMembers).getD [] ++
        (node.fallback.map defaultMembers).getD []) := by
  obtain ⟨_, _, _, _, schema, items, _, _, _, _, _, _, _⟩ := node
  rcases schema with _ | (fields | code) <;> cases items <;> rfl

/-- The schemas of deferred fields, when the contents of expanded parts have theirs. -/
def expandedFields (host : Host σ) (content : Definition → Projection σ Json) (code : Code) :
    Projection σ (Option Json) :=
  expanding none do
    let fields ← ofForcing (host.fields code)
    some <$> properties (fields.map fun field => (field.1, content field.2))

theorem layer_node (host : Host σ) (content : Definition → Projection σ Json)
    (keywords : Node Definition) :
    layer host content (.node keywords) =
      ofNode (expandedFields host content) (keywords.map (layer host content)) := by
  unfold layer
  rw [Definition.fold_node]
  rfl

/-! ## What comes out -/

/-- Inside of an expansion or outside, all that a projection comes to has a property, and it
is still inside or outside. -/
def Projection.Yields (inside : Bool) (m : Projection σ α) (Q : α → Prop) : Prop :=
  ∀ state a state', state.expanding = inside → m state = .ok a state' →
    state'.expanding = inside ∧ Q a

namespace Projection.Yields

variable {inside : Bool} {m : Projection σ α} {Q : α → Prop}

theorem imp {R : α → Prop} (h : Yields inside m Q) (himp : ∀ a, Q a → R a) : Yields inside m R :=
  fun state a state' hinside hok =>
    let ⟨hinside', ha⟩ := h state a state' hinside hok
    ⟨hinside', himp a ha⟩

theorem pure {a : α} (h : Q a) : Yields inside (pure a : Projection σ α) Q := by
  rintro state b state' hinside ⟨⟩
  exact ⟨hinside, h⟩

/-- **Steps in sequence.** -/
theorem bind {f : α → Projection σ β} {R : β → Prop} (hm : Yields inside m Q)
    (hf : ∀ a, Q a → Yields inside (f a) R) : Yields inside (m >>= f) R := by
  intro state b state' hinside hok
  simp only [Bind.bind, EStateM.bind] at hok
  cases hfirst : m state with
  | error fault middle => rw [hfirst] at hok; cases hok
  | ok a middle =>
    rw [hfirst] at hok
    obtain ⟨hmiddle, ha⟩ := hm state a middle hinside hfirst
    exact hf a ha middle b state' hmiddle hok

theorem map {f : α → β} {R : β → Prop} (hm : Yields inside m Q) (hf : ∀ a, Q a → R (f a)) :
    Yields inside (f <$> m) R := by
  rw [map_eq_pure_bind]
  exact hm.bind fun a ha => .pure (hf a ha)

theorem ofForcing {m : Forcing σ α} (h : ∀ env a env', m env = .ok a env' → Q a) :
    Yields inside (ofForcing m) Q := by
  intro state a state' hinside hok
  unfold JsonSchema.ofForcing at hok
  cases hm : m state.env with
  | ok b env =>
    rw [hm] at hok
    cases hok
    exact ⟨hinside, h _ _ _ hm⟩
  | error fault env => rw [hm] at hok; cases hok

/-- **A deferred part** is left open inside of an expansion, and expanded outside. -/
theorem expanding {leftOpen : α} (hopen : inside = true → Q leftOpen)
    (hm : inside = false → Yields true m Q) : Yields inside (expanding leftOpen m) Q := by
  intro state a state' hinside hok
  unfold JsonSchema.expanding at hok
  cases hin : inside with
  | true =>
    rw [if_pos (hinside.trans hin)] at hok
    cases hok
    exact ⟨hinside.trans hin, hopen hin⟩
  | false =>
    rw [if_neg (by rw [hinside, hin]; exact Bool.false_ne_true)] at hok
    cases hrun : m { state with expanding := true } with
    | ok b after =>
      rw [hrun] at hok
      cases hok
      exact ⟨rfl, (hm hin _ _ after rfl hrun).2⟩
    | error fault after => rw [hrun] at hok; cases hok

/-- The schemas of fields one by one. -/
theorem properties {fields : List (String × δ)} {project : δ → Projection σ Json}
    {covers : δ → Json → Prop}
    (h : ∀ field ∈ fields, Yields inside (project field.2) (covers field.2)) :
    Yields inside (properties (fields.map fun field => (field.1, project field.2)))
      fun json => ∃ schemas, Entries.Alongside covers fields schemas ∧
        json = .object (Entries.collect schemas) := by
  have hfields : Yields inside ((fields.map fun field => (field.1, project field.2)).mapM
      fun field => return (field.1, ← field.2)) (Entries.Alongside covers fields) := by
    induction fields with
    | nil => exact .pure .nil
    | cons field rest ih =>
      obtain ⟨hfield, hrest⟩ := List.forall_mem_cons.1 h
      rw [List.map_cons, List.mapM_cons]
      refine (hfield.bind fun schema hschema => .pure (Q := fun entry : String × Json =>
        field.1 = entry.1 ∧ covers field.2 entry.2) ⟨rfl, hschema⟩).bind fun entry hentry => ?_
      exact (ih hrest).bind fun schemas hschemas => .pure (.cons hentry hschemas)
  exact hfields.bind fun schemas hschemas => .pure ⟨schemas, hschemas, rfl⟩

/-- **The schema of a node** has the schemas of its fields and of its items in it. -/
theorem ofNode {deferred : Code → Projection σ (Option Json)} {keywords : Node δ}
    {project : δ → Projection σ Json} {covers : δ → Json → Prop}
    {expanded : Code → Option (Entries Json) → Prop}
    (hfields : ∀ fields, keywords.schema = some (.declared fields) → ∀ field ∈ fields,
      Yields inside (project field.2) (covers field.2))
    (hdeferred : ∀ code, keywords.schema = some (.deferred code) →
      Yields inside (deferred code) fun json? =>
        ∃ properties?, expanded code properties? ∧ json? = properties?.map .object)
    (hitems : ∀ item, keywords.items = some item → Yields inside (project item) (covers item)) :
    Yields inside (ofNode deferred (keywords.map project)) fun json => ∃ properties? items?,
      (keywords.schema = none → properties? = none) ∧
      (∀ fields, keywords.schema = some (.declared fields) → ∃ schemas,
        Entries.Alongside covers fields schemas ∧ properties? = some (Entries.collect schemas)) ∧
      (∀ code, keywords.schema = some (.deferred code) → expanded code properties?) ∧
      Option.Rel covers keywords.items items? ∧
      json = .object (keywords.schemaMembers properties? items?) := by
  -- Fields give an object of schemas, or nothing where there are none or they are left open.
  have hproperties : Yields inside (fieldSchemas deferred (keywords.map project).schema)
      fun json? => ∃ properties?, ((keywords.schema = none → properties? = none) ∧
        (∀ fields, keywords.schema = some (.declared fields) → ∃ schemas,
          Entries.Alongside covers fields schemas ∧ properties? = some (Entries.collect schemas)) ∧
        ∀ code, keywords.schema = some (.deferred code) → expanded code properties?) ∧
        json? = properties?.map .object := by
    rcases hschema : keywords.schema with _ | (fields | code) <;>
      simp only [Node.map, hschema, Option.map_none, Option.map_some, Fields.map, fieldSchemas]
    · refine .pure ⟨none, ⟨fun _ => rfl, ?_, ?_⟩, rfl⟩
      · rintro fields ⟨⟩
      · rintro code ⟨⟩
    · refine (properties (hfields fields hschema)).map fun json hjson => ?_
      obtain ⟨schemas, hschemas, rfl⟩ := hjson
      refine ⟨some (Entries.collect schemas), ⟨?_, ?_, ?_⟩, rfl⟩
      · rintro ⟨⟩
      · rintro _ ⟨⟩
        exact ⟨schemas, hschemas, rfl⟩
      · rintro code ⟨⟩
    · refine (hdeferred code hschema).imp fun json? hjson => ?_
      obtain ⟨properties?, hexpanded, rfl⟩ := hjson
      refine ⟨properties?, ⟨?_, ?_, ?_⟩, rfl⟩
      · rintro ⟨⟩
      · rintro fields ⟨⟩
      · rintro _ ⟨⟩
        exact hexpanded
  have hitem : Yields inside (itemSchema (keywords.map project).items)
      (Option.Rel covers keywords.items) := by
    cases hsome : keywords.items with
    | none =>
      simp only [Node.map, hsome, Option.map_none, itemSchema]
      exact .pure .none
    | some item =>
      simp only [Node.map, hsome, Option.map_some, itemSchema]
      exact (hitems item hsome).map fun _ => .some
  rw [ofNode_eq]
  refine hproperties.bind fun json? hjson => ?_
  obtain ⟨properties?, ⟨hnone, hdeclared, hexpanded⟩, rfl⟩ := hjson
  refine hitem.bind fun items? hitems? => .pure ?_
  refine ⟨properties?, items?, hnone, hdeclared, hexpanded, hitems?, ?_⟩
  cases properties? <;> rfl

end Projection.Yields

end JsonSchema

end Conform
