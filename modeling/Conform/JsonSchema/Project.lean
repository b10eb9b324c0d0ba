import Conform.Definition.Resolve

/-!
# Definitions as JSON Schemas

What a definition demands is said, as far as it can be, in the words of JSON
Schema.  Functions, alternatives, fields that must be absent, transforms and
produced defaults have no words there and are left out.

Deferred parts are expanded once: what an expanded part defers again is left open.
So the schema is finite also where a definition refers to itself.

## Main definitions

* `Definition.project`: the schema of a definition.
-/

namespace Conform

namespace JsonSchema

variable {σ α : Type}

/-- The state of a projection. -/
structure State (σ : Type) where
  /-- Whether a deferred part is being expanded. -/
  expanding : Bool := false
  /-- The state of the host. -/
  env : σ

/-- A part of a projection. -/
abbrev Projection (σ : Type) := EStateM DefinitionError (State σ)

/-- Asks the host. -/
def ofForcing (m : Forcing σ α) : Projection σ α := fun state =>
  match m state.env with
  | .ok a env => .ok a { state with env }
  | .error fault env => .error fault { state with env }

/-- Expands a deferred part, unless another is being expanded. -/
def expanding (leftOpen : α) (m : Projection σ α) : Projection σ α := fun state =>
  if state.expanding then .ok leftOpen state
  else
    match m { state with expanding := true } with
    | .ok a state => .ok a { state with expanding := false }
    | .error fault state => .error fault { state with expanding := false }

/-- The schema that demands nothing. -/
def anything : Json := .object []

/-- What a declared type demands. -/
def typeMembers : Option TypeName → List (String × Json)
  | none => []
  | some .function => []
  | some .dateTime => [("type", .string "string"), ("format", .string "date-time")]
  | some kind => [("type", .string kind.text)]

/-- The word for a bound. -/
def boundName : Comparator → String
  | .gt => "exclusiveMinimum"
  | .gte => "minimum"
  | .lt => "exclusiveMaximum"
  | .lte => "maximum"

/-- What bounds demand. -/
def boundMembers (bounds : Bounds) : List (String × Json) :=
  bounds.toList.map fun (comparator, bound) => (boundName comparator, .ofReal bound)

/-- A default as far as it is known beforehand. -/
def defaultMembers : Fallback → List (String × Json)
  | .literal json => [("default", json)]
  | .produced _ => []

/-- The schemas of fields; a repeated field keeps its place and takes the later
schema. -/
def properties (fields : List (String × Projection σ Json)) : Projection σ Json := do
  return .object (Entries.collect (← fields.mapM fun field => return (field.1, ← field.2)))

/-- Under which name the schema of items stands. -/
def itemsName (kind : Option TypeName) : String :=
  if kind = some .object then "additionalProperties" else "items"

/-- The schema of a node whose sub-definitions have schemas still to be made; the
fields of a deferred schema, if they are not left open, are given by `deferred`. -/
def ofNode (deferred : Code → Projection σ (Option Json)) (node : Node (Projection σ Json)) :
    Projection σ Json := do
  let properties? ← match node.schema with
    | none => pure none
    | some (.declared fields) => some <$> properties fields
    | some (.deferred code) => deferred code
  let items? ← match node.items with
    | none => pure none
    | some items => some <$> items
  -- The schema of an object's items already says what further fields may be.
  let closed := node.strict = some true ∧ ¬(items?.isSome ∧ node.kind = some .object)
  return .object <|
    typeMembers node.kind ++
    (node.allowed.map fun allowed => ("enum", .array allowed)).toList ++
    (node.require.map fun names => ("required", .array (names.map Json.string))).toList ++
    (properties?.map fun json => ("properties", json)).toList ++
    (items?.map fun json => (itemsName node.kind, json)).toList ++
    (if closed then [("additionalProperties", .bool false)] else []) ++
    (node.bounds.map boundMembers).getD [] ++
    (node.fallback.map defaultMembers).getD []

/-- The schema of a definition, when the contents of expanded parts have theirs. -/
def layer (host : Host σ) (content : Definition → Projection σ Json) :
    Definition → Projection σ Json :=
  let deferred (code : Code) : Projection σ (Option Json) := expanding none do
    let fields ← ofForcing (host.fields code)
    some <$> properties (fields.map fun field => (field.1, content field.2))
  Definition.fold
    (fun type => ofNode deferred (.ofType type))
    (fun thunk => expanding anything do
      let resolved ← ofForcing (resolve host {} (.deferred thunk))
      content (.node resolved.node))
    (ofNode deferred)

/-- The schema inside of an expanded part. -/
def inner (host : Host σ) : Definition → Projection σ Json :=
  layer host fun _ => return anything

/-- The schema outside of expanded parts. -/
def outer (host : Host σ) : Definition → Projection σ Json := layer host (inner host)

end JsonSchema

/-- The schema of a definition. -/
def Definition.project {σ : Type} (host : Host σ) (definition : Definition) : Forcing σ Json :=
  fun env =>
    match JsonSchema.outer host definition { env } with
    | .ok json state => .ok json state.env
    | .error fault state => .error fault state.env

end Conform
