import Conform.Definition.Grammar
import Conform.Value.Heap

/-!
# Hosts

A host is the program around the library.  It knows what the deferred parts of a
definition stand for, and it has a state of its own, `σ`.  Producing definitions
and fields may use and change that state; producing defaults, transforming values
and calling functions may use and change the values in the heap as well.

## Main definitions

* `World`: the heap and the host's state.
* `Host`: what the deferred parts stand for.
* `Forcing`, `Run`: computations that ask the host.
-/

namespace Conform

/-- The heap and the state of the host. -/
structure World (σ : Type) where
  heap : Heap := {}
  env : σ

/-- A computation that produces definitions, or finds that it cannot. -/
abbrev Forcing (σ : Type) := EStateM DefinitionError σ

/-- A computation that may change the heap and the state of the host. -/
abbrev Run (σ : Type) := StateM (World σ)

/-- What deferred parts stand for. -/
structure Host (σ : Type) where
  /-- Produces a definition. -/
  force : Code → Forcing σ Definition
  /-- Produces the fields of an object. -/
  fields : Code → Forcing σ (List (String × Definition))
  /-- Produces a default. -/
  produce : Code → Run σ Value
  /-- Replaces a value, or refuses it with a reason. -/
  transform : Code → Value → Run σ (Except String Value)
  /-- Calls a function. -/
  call : Code → List Value → Run σ Value

namespace Run

variable {σ α : Type}

/-- Works on the heap. -/
def ofHeap (m : HeapM α) : Run σ α := fun world =>
  let (a, heap) := m world.heap
  (a, ⟨heap, world.env⟩)

/-- Produces a definition and tells whether that was possible. -/
def ofForcing (m : Forcing σ α) : Run σ (Except DefinitionError α) := fun world =>
  match m world.env with
  | .ok a env => (.ok a, ⟨world.heap, env⟩)
  | .error fault env => (.error fault, ⟨world.heap, env⟩)

end Run

variable {σ : Type}

/-- The definition that a thunk yields. -/
def Thunk.force (host : Host σ) : Thunk → Forcing σ Definition
  | .grammar => pure Definition.grammar
  | .host code => host.force code

/-- The fields of a schema. -/
def Fields.resolve (host : Host σ) : Fields Definition → Forcing σ (List (String × Definition))
  | .declared fields => pure fields
  | .deferred code => host.fields code

/-- The value that stands in for an absent one. -/
def Fallback.produce (host : Host σ) : Fallback → Run σ Value
  | .literal json => Run.ofHeap (Value.ofJson json)
  | .produced code => host.produce code

/-- What a transform makes of a value. -/
def Transform.apply (host : Host σ) : Transform → Value → Run σ (Except String Value)
  | .nonEmpty, value => fun world =>
    match value with
    | .array ref =>
      if (world.heap.items ref).isEmpty then
        (.error "must list at least one alternative", world)
      else (.ok value, world)
    | _ => (.ok value, world)
  | .host code, value => host.transform code value

end Conform
