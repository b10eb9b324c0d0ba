import Conform.Definition.Host

/-!
# Definitions as values

A definition is written out as a value: a type name as a string and a node as an
object of its keywords.  Deferred parts become functions, which give the part when
they are called; nothing is forced before.

## Main definitions

* `Definition.toValue`: the value of a definition.
* `Callable.call`, `Value.call`: calling a function.
-/

namespace Conform

namespace Node

/-- A new array of names. -/
def lowerNames (names : List String) : HeapM Value := Heap.newArray (names.map Value.string)

/-- The value of a default. -/
def lowerFallback : Fallback → HeapM Value
  | .literal json => Value.ofJson json
  | .produced code => Heap.newFunction (.produce code)

/-- A new object of fields whose values are still to be made. -/
def lowerEntries (entries : List (String × HeapM Value)) : HeapM Value := do
  Heap.newObject (.ofList (← entries.mapM fun entry => return (entry.1, ← entry.2)))

/-- The value of the fields of a schema. -/
def lowerFields : Fields (HeapM Value) → HeapM Value
  | .declared fields => lowerEntries fields
  | .deferred code => Heap.newFunction (.fields code)

/-- A new array of the contents of documents. -/
def lowerAllowed (allowed : List Json) : HeapM Value := do
  Heap.newArray (← Value.ofItems allowed)

/-- A new object of bounds. -/
def lowerBounds (bounds : Bounds) : HeapM Value :=
  Heap.newObject (.ofList (bounds.toList.map fun (comparator, bound) =>
    (comparator.text, .number bound)))

/-- A new array of values that are still to be made. -/
def lowerList (definitions : List (HeapM Value)) : HeapM Value := do
  Heap.newArray (← definitions.mapM id)

/-- The value of a node whose sub-definitions have values that are still to be
made. -/
def lower (node : Node (HeapM Value)) : HeapM Value :=
  let flag (b : Bool) : HeapM Value := pure (.bool b)
  let parts : List (Keyword × Option (HeapM Value)) :=
    [(.optional, if node.optional then some (flag true) else none),
      (.required, node.required.map flag),
      (.default, node.fallback.map lowerFallback),
      (.type, node.kind.map fun kind => pure (.string kind.text)),
      (.schema, node.schema.map lowerFields),
      (.items, node.items),
      (.oneOf, node.allowed.map lowerAllowed),
      (.bounds, node.bounds.map lowerBounds),
      (.either, node.either.map lowerList),
      (.strict, node.strict.map flag),
      (.require, node.require.map lowerNames),
      (.restrict, node.restrict.map lowerNames),
      (.custom, node.custom.map fun transform => Heap.newFunction (.apply transform))]
  lowerEntries <| parts.filterMap fun (keyword, part) =>
    part.map fun value => (keyword.text, value)

end Node

/-- The value of a definition. -/
def Definition.toValue : Definition → HeapM Value :=
  fold (fun type => pure (.string type.text)) (fun thunk => Heap.newFunction (.force thunk))
    Node.lower

/-- The value of a node. -/
def Node.toValue (node : Node Definition) : HeapM Value := (node.map Definition.toValue).lower

/-- The value of fields. -/
def Fields.toValue (fields : List (String × Definition)) : HeapM Value :=
  Node.lowerFields (.declared (fields.map fun field => (field.1, field.2.toValue)))

variable {σ : Type}

/-- The value of what was produced; null if nothing could be. -/
def Run.orNull {α : Type} (lower : α → HeapM Value) (m : Forcing σ α) : Run σ Value := do
  match ← Run.ofForcing m with
  | .ok a => Run.ofHeap (lower a)
  | .error _ => return .null

/-- Calls a function.  The functions in the value of a definition give what was
deferred, lowered in its turn, and null if it cannot be had. -/
def Callable.call (host : Host σ) (callable : Callable) (arguments : List Value) :
    Run σ Value :=
  match callable with
  | .host code => host.call code arguments
  | .force thunk => Run.orNull Definition.toValue (thunk.force host)
  | .fields code => Run.orNull Fields.toValue (host.fields code)
  | .produce code => host.produce code
  | .apply transform => do
    match ← transform.apply host (arguments.headD .null) with
    | .ok value => return value
    | .error _ => return .null

/-- Calls a value, if it is a function; one that leads nowhere gives null. -/
def Value.call (host : Host σ) (value : Value) (arguments : List Value) :
    Run σ (Option Value) := do
  match value with
  | .function ref =>
    match (← get).heap.functions[ref]? with
    | some callable => return some (← callable.call host arguments)
    | none => return some .null
  | _ => return none

end Conform
