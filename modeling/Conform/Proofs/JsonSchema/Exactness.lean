import Conform.Proofs.Definition.Provenance
import Conform.Proofs.JsonSchema.Soundness
import Conform.Proofs.Validation.Totality

/-!
# Schemas that say all that definitions do

Where each keyword of a definition has its like in JSON Schema, the schema accepts just the
documents in which a check finds no violation.  Such a definition names the type of every
part, so that each keyword speaks of values of one kind, as the words of JSON Schema do; and
its fields may all be missing, since a schema for a property says nothing of a document
without it.

## Main definitions

* `Definition.jsonSchema`: the schema of a definition that is written out.
* `Node.Expressible`, `Definition.Expressible`: what can be said in full.
* `JsonSchema.Says`: a schema that accepts just the documents of which something is said.

## Main results

* `Definition.project_of_written`: no host is asked for the schema of a written definition.
* `Node.allows_iff_demands`: the schema of a node demands what the node does.
* `JsonSchema.says_jsonSchema`: the schema of a definition says what the definition does.
* `check_iff_accepts`: it accepts just the documents in which a check finds no violation.
-/

namespace Conform

variable {σ : Type}

/-! ## Schemas of written definitions -/

namespace Node

variable {δ ε : Type}

theorem map_map {ι : Type} (node : Node δ) (f : δ → ε) (g : ε → ι) :
    (node.map f).map g = node.map (g ∘ f) := by
  obtain ⟨_, _, _, _, schema, items, _, _, either, _, _, _, _⟩ := node
  rcases schema with _ | (fields | code) <;> simp [map, Fields.map, Function.comp_def]

/-- What is the same of the parts of a node gives the same node. -/
theorem map_congr {node : Node δ} {f g : δ → ε} (h : ∀ part ∈ node.parts, f part = g part) :
    node.map f = node.map g := by
  have hschema : node.schema.map (·.map f) = node.schema.map (·.map g) := by
    rcases hsome : node.schema with _ | (fields | code)
    · rfl
    · simp only [Option.map_some, Fields.map, Option.some.injEq, Fields.declared.injEq]
      exact List.map_congr_left fun field hfield =>
        congrArg (field.1, ·) (h _ (mem_parts_of_field hsome hfield))
    · rfl
  have hitems : node.items.map f = node.items.map g :=
    Option.map_congr fun item hsome => h item (mem_parts_of_item hsome)
  have heither : node.either.map (·.map f) = node.either.map (·.map g) :=
    Option.map_congr fun alternatives hsome =>
      List.map_congr_left fun alternative hmem => h _ (mem_parts_of_alternative hsome hmem)
  simp only [map, hschema, hitems, heither]

/-- The schemas for properties, if a node has fields that are written out. -/
def propertySchemas (node : Node Json) : Option (Entries Json) :=
  match node.schema with
  | some (.declared fields) => some (Entries.collect fields)
  | _ => none

/-- The schema of a node, the parts of which have been made schemas. -/
def jsonSchema (node : Node Json) : Json :=
  .object (node.schemaMembers node.propertySchemas node.items)

end Node

/-- The schema of a definition that is written out. -/
def Definition.jsonSchema : Definition → Json :=
  fold (fun type => (Node.ofType type).jsonSchema) (fun _ => JsonSchema.anything) Node.jsonSchema

namespace JsonSchema

theorem properties_pure (fields : List (String × Json)) :
    properties (fields.map fun field => (field.1, (pure field.2 : Projection σ Json))) =
      pure (.object (Entries.collect fields)) := by
  have hfields : (fields.map fun field => (field.1, (pure field.2 : Projection σ Json))).mapM
      (fun field => return (field.1, ← field.2)) = (pure fields : Projection σ _) := by
    induction fields with
    | nil => rfl
    | cons field rest ih =>
      rw [List.map_cons, List.mapM_cons, ih]
      simp only [pure_bind]
  unfold properties
  rw [hfields, pure_bind]

/-- The schema of a node is made at once of those of its parts. -/
theorem ofNode_map_pure (deferred : Code → Projection σ (Option Json)) {node : Node Json}
    (hwritten : ∀ code, node.schema ≠ some (.deferred code)) :
    ofNode deferred (node.map pure) = pure node.jsonSchema := by
  have hfields : fieldSchemas deferred (node.map pure).schema =
      pure (node.propertySchemas.map .object) := by
    rcases hschema : node.schema with _ | (fields | code)
    · simp only [Node.map, Node.propertySchemas, hschema]
      rfl
    · simp only [Node.map, Node.propertySchemas, hschema, Option.map_some, Fields.map, fieldSchemas,
        properties_pure, map_pure]
    · exact absurd hschema (hwritten code)
  have hitem : (itemSchema (node.map pure).items : Projection σ (Option Json)) =
      pure node.items := by
    cases hitems : node.items with
    | none => simp only [Node.map, hitems]; rfl
    | some item => simp only [Node.map, hitems, Option.map_some, itemSchema, map_pure]
  rw [ofNode_eq, hfields, hitem, pure_bind, pure_bind]
  cases hproperties : node.propertySchemas <;>
    simp only [Node.jsonSchema, Node.schemaMembers, hproperties] <;> rfl

/-- A layer of the projection of a written definition. -/
theorem layer_of_written (host : Host σ) (content : Definition → Projection σ Json)
    {definition : Definition} (hwritten : definition.Written) :
    layer host content definition = pure definition.jsonSchema := by
  induction definition with
  | shorthand type =>
    exact @ofNode_map_pure σ (expandedFields host content) (.ofType type) nofun
  | deferred thunk => cases hwritten
  | node keywords ih =>
    have hdeclared := (Definition.written_node_iff.1 hwritten).deferred
    have hparts : keywords.map (layer host content) =
        (keywords.map Definition.jsonSchema).map pure := by
      rw [Node.map_map]
      exact Node.map_congr fun part hpart => ih part hpart (hwritten.of_mem_parts hpart)
    rw [layer_node, hparts, ofNode_map_pure]
    · unfold Definition.jsonSchema
      rw [Definition.fold_node]
    · intro code hschema
      obtain ⟨fields, hfields, hmap⟩ := Option.map_eq_some_iff.1 hschema
      cases fields with
      | declared fields => cases hmap
      | deferred code => exact hdeclared code hfields

end JsonSchema

/-- **No host is asked** for the schema of a written definition. -/
theorem Definition.project_of_written (host : Host σ) {definition : Definition}
    (hwritten : definition.Written) (env : σ) :
    definition.project host env = .ok definition.jsonSchema env := by
  unfold project JsonSchema.outer
  rw [JsonSchema.layer_of_written host _ hwritten]
  rfl

/-! ## Nodes that can be said in full -/

/-- A node each keyword of which has its like in JSON Schema: it names the type of values, is
closed only where it has fields, and has items in arrays, or in objects that have no fields. -/
structure Node.Expressible {δ : Type} (node : Node δ) : Prop where
  kind : ∃ kind, node.kind = some kind ∧ kind ≠ .function ∧ kind ≠ .dateTime
  fallback : node.fallback = none
  either : node.either = none
  restrict : node.restrict = none
  items : node.items ≠ none →
    node.kind = some .array ∨ node.kind = some .object ∧ node.schema = none
  strict : node.strict = some true → node.schema ≠ none

theorem Node.Expressible.map {δ ε : Type} {node : Node δ} (h : node.Expressible) (f : δ → ε) :
    (node.map f).Expressible where
  kind := h.kind
  fallback := h.fallback
  either := by rw [Node.map, h.either]; rfl
  restrict := h.restrict
  items hitems := (h.items fun hnone => hitems (by rw [Node.map, hnone]; rfl)).imp_right
    fun ⟨hkind, hschema⟩ => ⟨hkind, by rw [Node.map, hschema]; rfl⟩
  strict hstrict hschema := h.strict hstrict (Option.map_eq_none_iff.1 hschema)

/-- A definition that asks for nothing where there is no value. -/
def Definition.Dispensable : Definition → Prop
  | .node keywords => keywords.required.getD (!keywords.optional) = false
  | _ => False

/-- A definition that JSON Schema has words for: the fields of a node may all be missing. -/
def Definition.Expressible : Definition → Prop
  | .shorthand type => type ≠ .function ∧ type ≠ .dateTime
  | .deferred _ => False
  | .node keywords => keywords.Expressible ∧
    ∀ fields, keywords.schema = some (.declared fields) → ∀ field ∈ fields, field.2.Dispensable

namespace Definition.Expressible

variable {definition : Definition}

theorem inert (h : definition.Expressible) : definition.Inert := by
  cases definition with
  | shorthand type => exact h.2
  | deferred thunk => cases h
  | node keywords =>
    obtain ⟨kind, hkind, -, hdate⟩ := h.1.kind
    refine ⟨h.1.fallback, ?_⟩
    rw [hkind]
    exact fun heq => hdate (Option.some.inj heq)

theorem alternation_eq (h : definition.Expressible) : definition.alternation = 0 := by
  cases definition with
  | shorthand type => rfl
  | deferred thunk => cases h
  | node keywords => exact alternation_node_of_none h.1.either

end Definition.Expressible

/-- A schema accepts just the documents of which something is said. -/
def JsonSchema.Says (heap : Heap) (level : Ref → Nat) (P : Value → Prop) (schema : Json) : Prop :=
  ∀ json value, heap.Carries level json value → (accepts schema json = true ↔ P value)

namespace Node

open JsonSchema

variable {heap : Heap} {level : Ref → Nat} {policy : Policy} {json : Json} {value : Value}
  {node : Node (Value → Prop)} {properties? : Option (Entries Json)} {items? : Option Json}

section Parts

variable {fields : List (String × (Value → Prop))} {schemas : Entries Json} {ref : Ref}

/-- A field that is there is as the schema for it says. -/
theorem field_of_allows (h : heap.Carries level json (.object ref))
    (hallows : node.Allows (some schemas) items? json)
    (hschemas : Entries.Alongside (Says heap level) fields schemas)
    (habsent : ∀ field ∈ fields, field.2 .null) :
    ∀ field ∈ fields, field.2 (heap.fieldOf ref field.1) := by
  intro field hfield
  obtain ⟨property, hproperty, hname, hexact⟩ := exists_of_mem_forall₂ hschemas.flip hfield
  obtain ⟨hthere, hmissing⟩ := h.fieldOf field.1
  cases hget : json.members.get? field.1 with
  | none =>
    -- The schema says nothing of a property that is missing.
    rw [hmissing hget]
    exact habsent field hfield
  | some part =>
    refine (hexact part _ (hthere part hget)).1 ?_
    exact hallows.properties schemas rfl property hproperty part (hname ▸ hget)

/-- An expressible node that is strict and has fields closes its schema: it has no entries
beside them. -/
theorem declared_of_allows (h : heap.Carries level json (.object ref))
    (hallows : node.Allows (some schemas) items? json) (hnode : node.Expressible)
    (hschema : node.schema = some (.declared fields))
    (hschemas : Entries.Alongside (Says heap level) fields schemas)
    (hitems : items?.isSome → node.items ≠ none) (hstrict : node.strict = some true) :
    ∀ name ∈ (heap.fields ref).keys, name ∈ fields.map Prod.fst := by
  intro name hname
  rw [h.keys_fields] at hname
  obtain ⟨member, hmember, rfl⟩ := List.mem_map.1 hname
  have hentries : ¬(items?.isSome ∧ node.kind = some .object) := by
    rintro ⟨hitem, hobject⟩
    obtain harray | ⟨-, hnone⟩ := hnode.items (hitems hitem)
    · cases hobject.symm.trans harray
    · cases hschema.symm.trans hnone
  have hkeys := hallows.closed hstrict hentries member hmember
  rwa [Option.getD_some, ← hschemas.keys_eq] at hkeys

/-- The items of an array, or the entries of an object, are as the schema for them says. -/
theorem items_of_allows {kind : TypeName} {item : Value → Prop} {schema : Json}
    (h : heap.Carries level json value) (hallows : node.Allows properties? (some schema) json)
    (hnode : node.Expressible) (hkind : node.kind = some kind) (htype : value.HasType kind)
    (hnone : node.schema = none → properties? = none) (hitem : node.items = some item)
    (hexact : Says heap level item schema) :
    (∃ ref, value = .array ref ∧ ∀ part ∈ heap.items ref, item part) ∨
      ∃ ref, value = .object ref ∧ ∀ entry ∈ (heap.fields ref).entries, item entry.2 := by
  have hthere : node.items ≠ none := by simp [hitem]
  obtain harray | ⟨hobject, hfields⟩ := hnode.items hthere
  · cases hkind.symm.trans harray
    obtain ⟨ref⟩ := htype
    obtain ⟨items, rfl, hparts⟩ := h.exists_of_array
    refine .inl ⟨_, rfl, fun part hpart => ?_⟩
    obtain ⟨document, hmem, hcarries⟩ := exists_of_mem_forall₂ hparts hpart
    exact (hexact document part hcarries).1
      (hallows.items schema rfl (by simp [harray]) items rfl document hmem)
  · cases hkind.symm.trans hobject
    obtain ⟨ref⟩ := htype
    obtain ⟨members, rfl, hmembers⟩ := h.exists_of_object
    refine .inr ⟨_, rfl, fun entry hentry => ?_⟩
    obtain ⟨member, hmem, -, hcarries⟩ := exists_of_mem_forall₂ hmembers hentry
    refine (hexact member.2 entry.2 hcarries).1 (hallows.entries schema rfl hobject member hmem ?_)
    -- Without fields no entry has a schema of its own.
    rw [hnone hfields]
    exact List.not_mem_nil

end Parts

/-- The words of JSON Schema demand no less than the keywords of an expressible node. -/
theorem demands_of_allows (h : heap.Carries level json value)
    (hallows : node.Allows properties? items? json) (hnode : node.Expressible)
    (hopen : policy.defaultStrict = false)
    (hfinite : ∀ bounds, node.bounds = some bounds → ∀ comparator bound,
      bounds.get? comparator = some bound → bound.isFinite = true)
    (hnone : node.schema = none → properties? = none)
    (hproperties : ∀ fields, node.schema = some (.declared fields) → ∃ schemas,
      properties? = some schemas ∧ Entries.Alongside (Says heap level) fields schemas ∧
        ∀ field ∈ fields, field.2 .null)
    (hitems : Option.Rel (Says heap level) node.items items?) :
    node.Demands policy heap value := by
  obtain ⟨kind, hkind, hfunction, hdate⟩ := hnode.kind
  have hsome : node.kind ≠ none := by
    rw [hkind]
    nofun
  have htype : value.HasType kind := h.hasType hdate hfunction (hallows.kind kind hkind)
  exact
    { kind := by
        rintro _ hother
        cases hkind.symm.trans hother
        exact htype
      allowed := by
        intro documents hdocuments
        obtain ⟨document, hmem, hsame⟩ := hallows.allowed documents hdocuments
        exact ⟨document, hmem, (h.equalsJson_eq document).trans hsame⟩
      bounds := by
        refine fun bounds hbounds => ⟨fun x hx comparator bound hbound => ?_, fun _ => hsome⟩
        obtain ⟨n, rfl, rfl⟩ := h.number_iff.1 hx
        exact hallows.bounds bounds hbounds n rfl comparator bound hbound
          (hfinite bounds hbounds comparator bound hbound)
      either := by
        rw [hnode.either]
        nofun
      schema := by
        refine fun fields hschema => ⟨?_, fun _ => hsome⟩
        rintro ref rfl
        obtain ⟨schemas, rfl, hschemas, habsent⟩ := hproperties fields hschema
        refine ⟨field_of_allows h hallows hschemas habsent, fun hstrict => ?_⟩
        refine declared_of_allows h hallows hnode hschema hschemas (fun hsome hmissing => ?_) ?_
        · rw [hmissing] at hitems
          cases hitems
          cases hsome
        · rw [hopen] at hstrict
          cases hclosed : node.strict <;> simp_all
      require := by
        refine fun names hrequire => ⟨?_, fun _ => hsome⟩
        rintro ref rfl name hname
        obtain ⟨members, rfl, -⟩ := h.exists_of_object
        exact (h.fieldOf_ne_null_iff name).2 (hallows.require names hrequire members rfl name hname)
      restrict := by
        rw [hnode.restrict]
        nofun
      items := by
        intro item hitem
        rw [hitem] at hitems
        cases hitems with
        | some hexact => exact items_of_allows h hallows hnode hkind htype hnone hitem hexact }

/-- **The schema of an expressible node demands what the node does**, if the schemas in it
say what the parts do. -/
theorem allows_iff_demands (h : heap.Carries level json value) (hnode : node.Expressible)
    (hopen : policy.defaultStrict = false)
    (hfinite : ∀ bounds, node.bounds = some bounds → ∀ comparator bound,
      bounds.get? comparator = some bound → bound.isFinite = true)
    (hwritten : ∀ code, node.schema ≠ some (.deferred code))
    (hnone : node.schema = none → properties? = none)
    (hproperties : ∀ fields, node.schema = some (.declared fields) → ∃ schemas,
      properties? = some schemas ∧ Entries.Alongside (Says heap level) fields schemas ∧
        ∀ field ∈ fields, field.2 .null)
    (hitems : Option.Rel (Says heap level) node.items items?) :
    node.Allows properties? items? json ↔ node.Demands policy heap value := by
  refine ⟨fun hallows => demands_of_allows h hallows hnode hopen hfinite hnone hproperties hitems,
    fun hdemands => allows_of_demands h hdemands ?_ ?_ ?_ fun hstrict => .inr (.inr ?_)⟩
  · obtain ⟨kind, hkind, -, hdate⟩ := hnode.kind
    rw [hkind]
    exact fun heq => hdate (Option.some.inj heq)
  · intro schemas hsome
    rcases hschema : node.schema with _ | (fields | code)
    · rw [hnone hschema] at hsome
      cases hsome
    · obtain ⟨_, hthere, hschemas, -⟩ := hproperties fields hschema
      obtain rfl := Option.some.inj (hsome.symm.trans hthere)
      refine ⟨fields, rfl, fun field hfield => ?_, fun property hproperty => ?_⟩
      · exact hschemas.keys_eq ▸ List.mem_map_of_mem hfield
      · obtain ⟨field, hfield, hname, hexact⟩ := exists_of_mem_forall₂ hschemas hproperty
        exact ⟨field, hfield, hname, fun json value hcarries => (hexact json value hcarries).2⟩
    · exact absurd hschema (hwritten code)
  · generalize node.items = item? at hitems ⊢
    cases hitems with
    | some hexact => exact .some fun json value hcarries => (hexact json value hcarries).2
    | none => exact .none
  · rcases hschema : node.schema with _ | (fields | code)
    · exact absurd hschema (hnode.strict hstrict)
    · obtain ⟨_, rfl, -⟩ := hproperties fields hschema
      nofun
    · exact absurd hschema (hwritten code)

end Node

namespace JsonSchema

variable {heap : Heap} {level : Ref → Nat} {policy : Policy}

/-- What an expressible definition that is dispensable says of null. -/
theorem conforms_null_of_dispensable {definition : Definition} (h : definition.Dispensable) :
    definition.Conforms policy heap .null := by
  cases definition with
  | node keywords =>
    rw [Definition.conforms_node]
    exact ⟨fun _ => h, fun hthere => absurd rfl hthere⟩
  | _ => cases h

/-- **The schema of an expressible node** says what the node does. -/
theorem says_node {keywords : Node Definition}
    (hwritten : ∀ code, keywords.schema ≠ some (.deferred code))
    (hexpressible : (Definition.node keywords).Expressible)
    (hregular : (Definition.node keywords).Regular) (hopen : policy.defaultStrict = false)
    (hparts : ∀ part ∈ keywords.parts,
      Says heap level (part.Conforms policy heap) part.jsonSchema) :
    Says heap level (Definition.Conforms policy heap (.node keywords))
      (Definition.jsonSchema (.node keywords)) := by
  intro json value hcarries
  have hconforms : Definition.Conforms policy heap (.node keywords) value ↔
      (keywords.map (Definition.Conforms policy heap)).Demands policy heap value := by
    rw [Definition.conforms_node]
    exact ⟨fun h => h.2 hcarries.ne_null, fun h => ⟨fun hnull => absurd hnull hcarries.ne_null,
      fun _ => h⟩⟩
  have hschema : Definition.jsonSchema (.node keywords) =
      (keywords.map Definition.jsonSchema).jsonSchema := by
    unfold Definition.jsonSchema
    rw [Definition.fold_node]
  rw [hconforms, hschema, Node.jsonSchema, Node.accepts_schemaMembers_iff, Node.allows_map_iff,
    ← Node.allows_map_iff (f := Definition.Conforms policy heap)]
  refine Node.allows_iff_demands hcarries (hexpressible.1.map _) hopen hregular.2 ?_ ?_ ?_ ?_
  · intro code hdeferred
    obtain ⟨_ | _, hcode, ⟨⟩⟩ := Option.map_eq_some_iff.1 hdeferred
    exact hwritten code hcode
  · intro hnone
    have hsame := Option.map_eq_none_iff.1 hnone
    simp only [Node.propertySchemas, Node.map, hsame, Option.map_none]
  · intro fields hdeclared
    obtain ⟨declared | _, hfields, ⟨⟩⟩ := Option.map_eq_some_iff.1 hdeclared
    have hnodup : (Entries.keys
        (declared.map fun field => (field.1, field.2.jsonSchema))).Nodup := by
      rw [Entries.keys, List.map_map]
      exact hregular.1 declared hfields
    refine ⟨declared.map fun field => (field.1, field.2.jsonSchema), ?_, ?_, ?_⟩
    · simp only [Node.propertySchemas, Node.map, hfields, Option.map_some, Fields.map,
        Entries.collect_of_nodup hnodup]
    · refine List.forall₂_map_left_iff.2 (List.forall₂_map_right_iff.2
        (List.forall₂_same.2 fun field hfield => ⟨rfl, ?_⟩))
      exact hparts _ (Node.mem_parts_of_field hfields hfield)
    · refine List.forall_mem_map.2 fun field hfield => ?_
      exact conforms_null_of_dispensable (hexpressible.2 declared hfields field hfield)
  · change Option.Rel _ (keywords.items.map _) (keywords.items.map _)
    cases hitems : keywords.items with
    | none => exact .none
    | some item => exact .some (hparts item (Node.mem_parts_of_item hitems))

/-- **The schema of a definition says what the definition does**, if all parts of it are
expressible. -/
theorem says_jsonSchema {definition : Definition} (hwritten : definition.Written)
    (hexpressible : ∀ part, definition.Part part → part.Expressible ∧ part.Regular)
    (hopen : policy.defaultStrict = false) :
    Says heap level (definition.Conforms policy heap) definition.jsonSchema := by
  induction definition with
  | shorthand type =>
    obtain ⟨hfunction, hdate⟩ := (hexpressible _ .refl).1
    rw [Definition.conforms_shorthand]
    exact says_node nofun ⟨⟨⟨type, rfl, hfunction, hdate⟩, rfl, rfl, rfl, fun h => absurd rfl h,
      nofun⟩, nofun⟩ ⟨nofun, nofun⟩ hopen nofun
  | deferred thunk => cases hwritten
  | node keywords ih =>
    obtain ⟨hself, hregular⟩ := hexpressible _ .refl
    refine says_node (Definition.written_node_iff.1 hwritten).deferred hself hregular hopen
      fun part hpart => ih part hpart (hwritten.of_mem_parts hpart) fun inner hinner =>
        hexpressible inner (.of_mem_parts hpart hinner)

end JsonSchema

/-- **The schema of an expressible definition accepts just the documents in which a check
finds no violation.**  The definition has been read, and every part of it can be said in JSON
Schema; in the document there is no null. -/
theorem check_iff_accepts (host : Host σ) {json : Json} {definition : Definition}
    (hread : Definition.ofJson json = .ok definition) (hdistinct : json.Distinct)
    (hfinite : json.Finite) (hexpressible : ∀ part, definition.Part part → part.Expressible)
    {document : Json} (hdocument : document.Distinct) (hnonnull : document.Nonnull)
    {value : Value} {world filled : World σ}
    (hmade : Run.ofHeap (Value.ofJson document) world = (value, filled)) (env : σ) :
    ∃ outcome after schema, check host {} value definition filled = (.ok outcome, after) ∧
      definition.project host env = .ok schema env ∧
      (outcome.violations = [] ↔ JsonSchema.accepts schema document = true) := by
  have hwritten := Definition.written_ofJson json hread
  have hcarries := Heap.Carries.of_made hdocument hnonnull hmade
  have hplain : definition.Plain := ⟨hwritten, fun part hpart => (hexpressible part hpart).inert⟩
  have halternation : ∀ part, definition.Part part → part.alternation < maxNesting := by
    intro part hpart
    rw [(hexpressible part hpart).alternation_eq]
    decide
  obtain ⟨outcome, after, hcheck⟩ : ∃ outcome after,
      check host {} value definition filled = (.ok outcome, after) :=
    check_total hwritten halternation rfl rfl value filled
  refine ⟨outcome, after, _, hcheck, definition.project_of_written host hwritten env, ?_⟩
  have hclear := Context.Clear.start {} hcarries.denotes.holds hcarries.denotes.acyclic
  have hdecides : Check.Decides filled.heap (.start {})
      (checkWithin host (nestingBound filled.heap definition) value definition) value
      (definition.Conforms {} filled.heap value) :=
    Check.decides_checkWithin _ _ value definition hclear hplain
  rw [hdecides.violations_eq_nil_iff hcheck]
  exact (JsonSchema.says_jsonSchema hwritten (fun part hpart => ⟨hexpressible part hpart,
    Definition.regular_ofJson hread hdistinct hfinite hpart⟩) rfl document value hcarries).symm

/-- A strict object with one field that may be missing, and a document with another: the schema
rejects it, and so the check complains. -/
theorem check_iff_accepts_strict :
    let json : Json := .object [("type", .string "object"), ("strict", .bool true),
      ("schema", .object [("id", .object [("type", .string "string"), ("optional", .bool true)])])]
    let document : Json := .object [("id", .string "a"), ("extra", .bool true)]
    let made := Run.ofHeap (Value.ofJson document) (⟨{}, ()⟩ : World Unit)
    ∃ definition outcome after schema, Definition.ofJson json = .ok definition ∧
      check default {} made.1 definition made.2 = (.ok outcome, after) ∧
      definition.project (default : Host Unit) () = .ok schema () ∧
      JsonSchema.accepts schema document = false ∧ outcome.violations ≠ [] := by
  intro json document made
  let id : Definition := .node { optional := true, kind := some .string }
  let definition : Definition :=
    .node { kind := some .object, strict := some true, schema := some (.declared [("id", id)]) }
  have hread : Definition.ofJson json = .ok definition := rfl
  have hdistinct : json.Distinct :=
    .object (by decide) (List.forall_mem_cons.2 ⟨.string _, List.forall_mem_cons.2 ⟨.bool _,
      List.forall_mem_singleton.2 (.object (by decide) (List.forall_mem_singleton.2
        (.object (by decide) (List.forall_mem_cons.2
          ⟨.string _, List.forall_mem_singleton.2 (.bool _)⟩))))⟩⟩)
  have hfinite : json.Finite :=
    ⟨nofun, List.forall_mem_cons.2 ⟨⟨nofun, nofun⟩, List.forall_mem_cons.2 ⟨⟨nofun, nofun⟩,
      List.forall_mem_singleton.2 ⟨nofun, List.forall_mem_singleton.2
        ⟨nofun, List.forall_mem_cons.2 ⟨⟨nofun, nofun⟩,
          List.forall_mem_singleton.2 ⟨nofun, nofun⟩⟩⟩⟩⟩⟩⟩
  have hexpressible : ∀ part, definition.Part part → part.Expressible := by
    have hid : id.Expressible :=
      ⟨⟨⟨.string, rfl, nofun, nofun⟩, rfl, rfl, rfl, fun h => absurd rfl h, nofun⟩, nofun⟩
    refine Definition.forall_part_node.2 ⟨⟨⟨⟨.object, rfl, nofun, nofun⟩, rfl, rfl, rfl,
      fun h => absurd rfl h, fun _ => nofun⟩, ?_⟩, ?_, nofun, nofun⟩
    · rintro _ ⟨⟩
      exact List.forall_mem_singleton.2 rfl
    · rintro _ ⟨⟩
      exact List.forall_mem_singleton.2
        (Definition.forall_part_node.2 ⟨hid, nofun, nofun, nofun⟩)
  have hdocument : document.Distinct :=
    .object (by decide) (List.forall_mem_cons.2
      ⟨.string _, List.forall_mem_singleton.2 (.bool _)⟩)
  have hnonnull : document.Nonnull :=
    ⟨nofun, List.forall_mem_cons.2 ⟨⟨nofun, nofun⟩, List.forall_mem_singleton.2 ⟨nofun, nofun⟩⟩⟩
  obtain ⟨outcome, after, schema, hcheck, hproject, hiff⟩ := check_iff_accepts (default : Host Unit)
    hread hdistinct hfinite hexpressible hdocument hnonnull (rfl : _ = (made.1, made.2)) ()
  have hrejects : JsonSchema.accepts schema document = false := by
    cases hproject
    decide +kernel
  refine ⟨definition, outcome, after, schema, hread, hcheck, hproject, hrejects, fun hvalid => ?_⟩
  rw [hiff.1 hvalid] at hrejects
  cases hrejects

end Conform
