import Conform.Deferred
import Conform.Definition.Keyword
import Conform.Json.Basic

/-!
# Definitions

A definition says what a value must be like.  It is the name of a type, a node
that sets some of the keywords, or a thunk that yields a definition when one is
needed.

A node is described over an arbitrary type of sub-definitions.  So whatever is
computed from a definition is given by what it is for a type name, for a thunk,
and for a node whose sub-definitions have been dealt with.

## Main definitions

* `Node`: the keywords of a node, over any type of sub-definitions.
* `Definition`: a definition.
* `Definition.fold`: what is computed bottom up.

## Main results

* `Definition.fold_node`: the fold of a node is the node of folds.
-/

namespace Conform

/-- What stands in for an absent value. -/
inductive Fallback where
  /-- The contents of a document, in new containers each time. -/
  | literal (json : Json)
  /-- A value that the host produces each time. -/
  | produced (code : Code)

/-- The fields of an object: written out, or produced each time they are needed. -/
inductive Fields (δ : Type) where
  | declared (fields : List (String × δ))
  | deferred (code : Code)

namespace Fields

variable {δ ε : Type}

/-- Applies a function to every field's definition. -/
def map (f : δ → ε) : Fields δ → Fields ε
  | declared fields => declared (fields.map fun field => (field.1, f field.2))
  | deferred code => deferred code

end Fields

/-- The keywords of a node. -/
structure Node (δ : Type) where
  /-- Whether the value may be absent, if `required` does not say. -/
  optional : Bool := false
  /-- Whether the value must be present. -/
  required : Option Bool := none
  /-- What stands in for an absent value. -/
  fallback : Option Fallback := none
  /-- The type of the value. -/
  kind : Option TypeName := none
  /-- The fields of the value, which must be an object. -/
  schema : Option (Fields δ) := none
  /-- What every item or entry of the value must be like. -/
  items : Option δ := none
  /-- The documents of which the value must have the contents of one. -/
  allowed : Option (List Json) := none
  /-- The bounds of the value, which must be a number. -/
  bounds : Option Bounds := none
  /-- The alternatives of which the value must meet one. -/
  either : Option (List δ) := none
  /-- Whether the value may have no fields but those of the schema. -/
  strict : Option Bool := none
  /-- The fields that must be present. -/
  require : Option (List String) := none
  /-- The fields that must be absent. -/
  restrict : Option (List String) := none
  /-- A last step that replaces the value or refuses it. -/
  custom : Option Transform := none

/-- A definition. -/
inductive Definition where
  | shorthand (type : TypeName)
  | deferred (thunk : Thunk)
  | node (node : Node Definition)

instance : Inhabited Definition := ⟨.node {}⟩

namespace Node

variable {δ ε : Type}

/-- Applies a function to every sub-definition. -/
def map (f : δ → ε) (node : Node δ) : Node ε :=
  { node with
    schema := node.schema.map (·.map f)
    items := node.items.map f
    either := node.either.map (·.map f) }

/-! ## Building nodes -/

/-- The node that declares nothing but a type. -/
def ofType (kind : TypeName) : Node δ := { kind := some kind }

/-- Adds a field at the end; fields that were deferred are given up for it. -/
def withField (node : Node δ) (name : String) (definition : δ) : Node δ :=
  { node with
    schema := some <| .declared <|
      match node.schema with
      | some (.declared fields) => fields ++ [(name, definition)]
      | _ => [(name, definition)] }

/-- Adds or replaces the bound for a comparison. -/
def withBound (node : Node δ) (comparator : Comparator) (bound : Float) : Node δ :=
  { node with bounds := some ((node.bounds.getD {}).set comparator bound) }

end Node

namespace Definition

/-! ## Folds -/

section Fold

variable {α : Type} (ofType : TypeName → α) (ofThunk : Thunk → α) (ofNode : Node α → α)

mutual

/-- What is computed from a definition bottom up: the given values for type names
and thunks, and the given function of a node whose sub-definitions have been
replaced by what was computed from them. -/
def fold : Definition → α
  | .shorthand type => ofType type
  | .deferred thunk => ofThunk thunk
  | .node ⟨mayMiss, required, fallback, kind, schema, items, allowed, bounds, either, strict,
      require, restrict, custom⟩ =>
    ofNode ⟨mayMiss, required, fallback, kind, foldSchema schema, foldItems items, allowed,
      bounds, foldEither either, strict, require, restrict, custom⟩

/-- The fold of the fields of a schema. -/
def foldSchema : Option (Fields Definition) → Option (Fields α)
  | none => none
  | some (.declared fields) => some (.declared (foldFields fields))
  | some (.deferred code) => some (.deferred code)

/-- The fold of declared fields. -/
def foldFields : List (String × Definition) → List (String × α)
  | [] => []
  | (name, definition) :: rest => (name, fold definition) :: foldFields rest

/-- The fold of the definition of items. -/
def foldItems : Option Definition → Option α
  | none => none
  | some definition => some (fold definition)

/-- The fold of alternatives, if there are any. -/
def foldEither : Option (List Definition) → Option (List α)
  | none => none
  | some alternatives => some (foldList alternatives)

/-- The fold of a list of definitions. -/
def foldList : List Definition → List α
  | [] => []
  | definition :: rest => fold definition :: foldList rest

end

theorem foldFields_eq_map (fields : List (String × Definition)) :
    foldFields ofType ofThunk ofNode fields =
      fields.map fun field => (field.1, fold ofType ofThunk ofNode field.2) := by
  induction fields with
  | nil => rfl
  | cons field rest ih => simp [foldFields, ih]

theorem foldList_eq_map (definitions : List Definition) :
    foldList ofType ofThunk ofNode definitions =
      definitions.map (fold ofType ofThunk ofNode) := by
  induction definitions with
  | nil => rfl
  | cons definition rest ih => simp [foldList, ih]

@[simp] theorem fold_shorthand (type : TypeName) :
    fold ofType ofThunk ofNode (.shorthand type) = ofType type := rfl

@[simp] theorem fold_deferred (thunk : Thunk) :
    fold ofType ofThunk ofNode (.deferred thunk) = ofThunk thunk := rfl

/-- **The fold of a node is the node of folds.** -/
@[simp] theorem fold_node (node : Node Definition) :
    fold ofType ofThunk ofNode (.node node) =
      ofNode (node.map (fold ofType ofThunk ofNode)) := by
  obtain ⟨_, _, _, _, schema, items, _, _, either, _, _, _, _⟩ := node
  have hschema : foldSchema ofType ofThunk ofNode schema =
      schema.map (·.map (fold ofType ofThunk ofNode)) := by
    rcases schema with _ | (fields | code)
    · rfl
    · simp [foldSchema, Fields.map, foldFields_eq_map]
    · rfl
  have hitems : foldItems ofType ofThunk ofNode items =
      items.map (fold ofType ofThunk ofNode) := by
    cases items <;> rfl
  have heither : foldEither ofType ofThunk ofNode either =
      either.map (·.map (fold ofType ofThunk ofNode)) := by
    cases either
    · rfl
    · simp [foldEither, foldList_eq_map]
  simp only [fold, Node.map, hschema, hitems, heither]

end Fold

/-- The number of definitions nested one inside the other, without what thunks and
deferred fields hold. -/
def depth : Definition → Nat :=
  fold (fun _ => 1) (fun _ => 1) fun node =>
    let fields := match node.schema with
      | some (.declared fields) => fields.map Prod.snd
      | _ => []
    (fields ++ node.items.toList ++ node.either.getD []).foldl max 0 + 1

/-- The name of the form of a definition. -/
def form : Definition → String
  | .shorthand _ => "shorthand"
  | .deferred _ => "thunk"
  | .node _ => "node"

end Definition

end Conform
