import Mathlib.Logic.Basic
import Conform.Proofs.Definition.Met
import Conform.Proofs.Value.Heap
import Conform.Value.Equality

/-!
# What a definition says of a value

A definition can be read without any check, as what it says of a value and of the heap as
they stand.  A node that is required says of an absent value that it should be there; of a
value that is there each keyword says its own.  Keywords for numbers or objects say
nothing of other values where the node declares a type, because the type says it.

This is the reading of definitions that neither fill in nor replace anything: defaults,
moments and transforms have no place in it, and neither have deferred parts.

## Main definitions

* `Value.HasType`: values of a type.
* `Node.Demands`: what the keywords of a node say of a value that is there.
* `Definition.Conforms`: what a definition says of a value.
* `Definition.Part`, `Definition.Inert`: the parts of a definition that is written out, and
  those that neither fill in nor replace anything.
* `Definition.Plain`: definitions that have such parts alone.
-/

namespace Conform

/-- Values of a type, moments apart. -/
inductive Value.HasType : TypeName → Value → Prop where
  | string {s : String} : HasType .string (.string s)
  | number {x : Float} : HasType .number (.number x)
  | boolean {b : Bool} : HasType .boolean (.bool b)
  | array {ref : Ref} : HasType .array (.array ref)
  | object {ref : Ref} : HasType .object (.object ref)
  | function {ref : FunctionRef} : HasType .function (.function ref)

/-! ## Nodes over what was computed from their parts -/

namespace Node

variable {δ ε : Type} {node : Node δ} {f : δ → ε}

theorem exists_either_map {P : ε → Prop} :
    (∀ alternatives, (node.map f).either = some alternatives → ∃ a ∈ alternatives, P a) ↔
      ∀ alternatives, node.either = some alternatives → ∃ a ∈ alternatives, P (f a) := by
  simp [Node.map]

theorem forall_items_map {P : ε → Prop} :
    (∀ item, (node.map f).items = some item → P item) ↔
      ∀ item, node.items = some item → P (f item) := by
  simp [Node.map]

theorem forall_schema_map {P : List (String × ε) → Prop} :
    (∀ fields, (node.map f).schema = some (.declared fields) → P fields) ↔
      ∀ fields, node.schema = some (.declared fields) →
        P (fields.map fun field => (field.1, f field.2)) := by
  simp only [Node.map, Option.map_eq_some_iff]
  constructor
  · intro h fields hsome
    exact h _ ⟨_, hsome, rfl⟩
  · rintro h _ ⟨fields | code, hsome, heq⟩
    · cases heq
      exact h fields hsome
    · cases heq

/-- The fields that are written in a node. -/
def declared (node : Node δ) : List (String × δ) :=
  match node.schema with
  | some (.declared fields) => fields
  | _ => []

/-- A node with its fields written out. -/
def spelled (node : Node δ) (fields : List (String × δ)) : Node δ :=
  { node with schema := node.schema.map fun _ => .declared fields }

/-- Where no fields are deferred they are written out. -/
theorem spelled_declared (h : ∀ code, node.schema ≠ some (.deferred code)) :
    node.spelled node.declared = node := by
  obtain ⟨_, _, _, _, schema, _⟩ := node
  rcases schema with _ | (fields | code)
  · rfl
  · rfl
  · exact absurd rfl (h code)

end Node

/-! ## Conformance -/

variable (policy : Policy) (heap : Heap)

/-- What the keywords of a node say of a value that is there, if it is known what the
sub-definitions say. -/
structure Node.Demands (node : Node (Value → Prop)) (value : Value) : Prop where
  kind : ∀ kind, node.kind = some kind → value.HasType kind
  allowed : ∀ documents, node.allowed = some documents →
    ∃ json ∈ documents, value.equalsJson heap json = true
  bounds : ∀ bounds, node.bounds = some bounds →
    (∀ x, value = .number x → ∀ comparator bound, bounds.get? comparator = some bound →
      comparator.holds x bound = true) ∧
      ((∀ x, value ≠ .number x) → node.kind ≠ none)
  either : ∀ alternatives, node.either = some alternatives →
    ∃ alternative ∈ alternatives, alternative value
  schema : ∀ fields, node.schema = some (.declared fields) →
    (∀ ref, value = .object ref → (∀ field ∈ fields, field.2 (heap.fieldOf ref field.1)) ∧
      (node.strict.getD policy.defaultStrict = true →
        ∀ name ∈ (heap.fields ref).keys, name ∈ fields.map Prod.fst)) ∧
      ((∀ ref, value ≠ .object ref) → node.kind ≠ none)
  require : ∀ names, node.require = some names →
    (∀ ref, value = .object ref → ∀ name ∈ names, heap.fieldOf ref name ≠ .null) ∧
      ((∀ ref, value ≠ .object ref) → node.kind ≠ none)
  restrict : ∀ names, node.restrict = some names →
    (∀ ref, value = .object ref → ∀ name ∈ names, heap.fieldOf ref name = .null) ∧
      ((∀ ref, value ≠ .object ref) → node.kind ≠ none)
  items : ∀ item, node.items = some item →
    (∃ ref, value = .array ref ∧ ∀ part ∈ heap.items ref, item part) ∨
      ∃ ref, value = .object ref ∧ ∀ entry ∈ (heap.fields ref).entries, item entry.2

/-- What a node says of a value. -/
def Node.Conforms (node : Node (Value → Prop)) (value : Value) : Prop :=
  (value = .null → node.required.getD (!node.optional) = false) ∧
    (value ≠ .null → node.Demands policy heap value)

/-- What a definition says of a value. -/
def Definition.Conforms : Definition → Value → Prop :=
  fold (fun type => (Node.ofType type).Conforms policy heap) (fun _ _ => False)
    (Node.Conforms policy heap)

namespace Definition

variable {policy heap}

/-- The name of a type says what the node with this type says. -/
theorem conforms_shorthand (type : TypeName) :
    Conforms policy heap (.shorthand type) = Conforms policy heap (.node (.ofType type)) := by
  unfold Conforms
  rw [fold_shorthand, fold_node]
  rfl

theorem conforms_node (keywords : Node Definition) :
    Conforms policy heap (.node keywords) =
      (keywords.map (Conforms policy heap)).Conforms policy heap := by
  unfold Conforms
  rw [fold_node]

/-! ## Definitions that change nothing -/

/-- A definition and all that is written in it. -/
inductive Part : Definition → Definition → Prop where
  | refl {definition : Definition} : Part definition definition
  | field {keywords : Node Definition} {fields : List (String × Definition)}
      {field : String × Definition} {part : Definition} :
      keywords.schema = some (.declared fields) → field ∈ fields → Part field.2 part →
      Part (.node keywords) part
  | item {keywords : Node Definition} {item part : Definition} :
      keywords.items = some item → Part item part → Part (.node keywords) part
  | alternative {keywords : Node Definition} {alternatives : List Definition}
      {alternative part : Definition} : keywords.either = some alternatives →
      alternative ∈ alternatives → Part alternative part → Part (.node keywords) part

/-- A definition that has no default and is not for moments. -/
def Inert : Definition → Prop
  | .shorthand type => type ≠ .dateTime
  | .node keywords => keywords.fallback = none ∧ keywords.kind ≠ some .dateTime
  | .deferred _ => True

/-- A definition without deferred parts, and all of whose parts are inert. -/
structure Plain (definition : Definition) : Prop where
  written : definition.Written
  inert : ∀ part, definition.Part part → part.Inert

variable {keywords : Node Definition}

/-- What all parts of a node have, the node and the parts of its parts have. -/
theorem forall_part_node {P : Definition → Prop} :
    (∀ part, Part (.node keywords) part → P part) ↔ P (.node keywords) ∧
      (∀ fields, keywords.schema = some (.declared fields) →
        ∀ field ∈ fields, ∀ part, field.2.Part part → P part) ∧
      (∀ item, keywords.items = some item → ∀ part, item.Part part → P part) ∧
      ∀ alternatives, keywords.either = some alternatives →
        ∀ alternative ∈ alternatives, ∀ part, alternative.Part part → P part := by
  constructor
  · intro h
    exact ⟨h _ .refl, fun _ hschema _ hfield part hpart => h part (.field hschema hfield hpart),
      fun _ hitems part hpart => h part (.item hitems hpart),
      fun _ heither _ hmem part hpart => h part (.alternative heither hmem hpart)⟩
  · rintro ⟨hself, hfields, hitem, halternatives⟩ part hpart
    cases hpart with
    | refl => exact hself
    | field hschema hfield hpart => exact hfields _ hschema _ hfield part hpart
    | item hitems hpart => exact hitem _ hitems part hpart
    | alternative heither hmem hpart => exact halternatives _ heither _ hmem part hpart

namespace Plain

/-- The name of a type is as plain as the node with this type. -/
theorem ofType {type : TypeName} (h : Plain (.shorthand type)) :
    Plain (.node (.ofType type)) where
  written := written_node_iff.2 ⟨rfl, nofun, nofun, nofun, nofun, nofun⟩
  inert := forall_part_node.2
    ⟨⟨rfl, fun heq => h.inert _ .refl (Option.some.inj heq)⟩, nofun, nofun, nofun⟩

theorem declared (h : Plain (.node keywords)) {fields : Fields Definition}
    (hschema : keywords.schema = some fields) :
    ∃ declared, fields = .declared declared := by
  cases fields with
  | declared declared => exact ⟨declared, rfl⟩
  | deferred code => exact absurd hschema ((written_node_iff.1 h.written).deferred code)

/-! What is written in a plain definition is plain. -/

theorem field (h : Plain (.node keywords)) {fields : List (String × Definition)}
    (hschema : keywords.schema = some (.declared fields)) {field : String × Definition}
    (hfield : field ∈ fields) : field.2.Plain :=
  ⟨(written_node_iff.1 h.written).fields _ hschema _ hfield,
    (forall_part_node.1 h.inert).2.1 _ hschema _ hfield⟩

theorem item (h : Plain (.node keywords)) {item : Definition}
    (hitems : keywords.items = some item) : item.Plain :=
  ⟨(written_node_iff.1 h.written).items _ hitems,
    (forall_part_node.1 h.inert).2.2.1 _ hitems⟩

theorem alternative (h : Plain (.node keywords)) {alternatives : List Definition}
    (heither : keywords.either = some alternatives) {alternative : Definition}
    (hmem : alternative ∈ alternatives) : alternative.Plain :=
  ⟨(written_node_iff.1 h.written).either _ heither _ hmem,
    (forall_part_node.1 h.inert).2.2.2 _ heither _ hmem⟩

end Plain

end Definition

end Conform
