import Conform.Calendar.Rfc3339
import Conform.Validation.Session
import Conform.Value.Copy
import Conform.Value.Equality

/-!
# What keywords demand

Each keyword of a node takes the value as the keywords before it have left it, and
gives the value as the keywords after it shall find it.  A keyword that is not set
passes the value on.  Sub-definitions are checked by `recurse`, which is the whole
check of a value against a definition.

## Main definitions

* `Check.type`, `Check.oneOf`, `Check.bounds`, `Check.either`, `Check.schema`,
  `Check.require`, `Check.restrict`, `Check.items`, `Check.custom`: the keywords.
* `Check.keywords`: all of them, in the order in which they are taken.
-/

namespace Conform.Check

variable {σ : Type}

/-- The check of a value against a sub-definition. -/
abbrev Recurse (σ : Type) := Value → Definition → Check σ Value

/-- What a keyword of a node makes of a value. -/
abbrev Demand (σ : Type) := Resolved → Value → Check σ Value

/-! ## Scalars -/

/-- The moment that a value encodes: milliseconds since 1970 as a number, or a text
with a timestamp or date. -/
def moment? : Value → Option DateTime
  | .dateTime moment => some moment
  | .number x => Number.truncate? x >>= DateTime.ofMillis?
  | .string text => Rfc3339.readMoment? text
  | _ => none

/-- Whether a value is of a type.  Moments are left to `moment?`. -/
def hasType : TypeName → Value → Bool
  | .string, .string _ => true
  | .number, .number _ => true
  | .boolean, .bool _ => true
  | .array, .array _ => true
  | .object, .object _ => true
  | .function, .function _ => true
  | _, _ => false

/-- A value of the declared type; for moments, the moment that it encodes. -/
def type : Demand σ := fun resolved value =>
  match resolved.node.kind with
  | none => pure value
  | some .dateTime =>
    match moment? value with
    | some moment => pure (.dateTime moment)
    | none => do
      report (.wrongType .dateTime) []
      return value
  | some kind => do
    demand (hasType kind value) (.wrongType kind)
    return value

/-- A value with the contents of one of the documents. -/
def oneOf : Demand σ := fun resolved value =>
  match resolved.node.allowed with
  | none => pure value
  | some allowed => do
    let found ← readHeap fun heap => allowed.any fun json => value.equalsJson heap json
    demand found (.notOneOf allowed)
    return value

/-- A number within the bounds.  Where the node declares a type, the type has
already complained about other values. -/
def bounds : Demand σ := fun resolved value =>
  match resolved.node.bounds, value with
  | none, _ => pure value
  | some bounds, .number x => do
    bounds.toList.forM fun (comparator, bound) =>
      demand (comparator.holds x bound) (.outOfBounds comparator bound)
    return value
  | some _, _ => do
    demand resolved.node.kind.isSome (.wrongType .number)
    return value

/-! ## Objects -/

/-- Goes on with the object that a value is.  Where the node declares a type, the type
has already complained about other values. -/
def withObject (resolved : Resolved) (value : Value) (m : Ref → Check σ Unit) :
    Check σ Value :=
  match value with
  | .object ref => do
    m ref
    return value
  | _ => do
    demand resolved.node.kind.isSome (.wrongType .object)
    return value

/-- Checks one field of an object.  A missing field is checked as null, and is added
if the check makes something of it. -/
def field (recurse : Recurse σ) (ref : Ref) (name : String) (definition : Definition) :
    Check σ Unit := do
  let current ← readHeap fun heap => (heap.fields ref).get? name
  let checked ← under (.key name) (recurse (current.getD .null) definition)
  if current.isSome || !checked.isAbsent then changeHeap (·.insertField ref name checked)
  else pure ()

/-- Complains about fields that are not declared. -/
def undeclared (ref : Ref) (declared : List String) : Check σ Unit := do
  let names ← readHeap fun heap => (heap.fields ref).keys
  names.forM fun name => demandAt (.key name) (declared.contains name) .undeclared

/-- An object whose fields are as declared; a strict one has no others. -/
def schema (host : Host σ) (recurse : Recurse σ) : Demand σ := fun resolved value =>
  match resolved.node.schema with
  | none => pure value
  | some fields => withObject resolved value fun ref => do
    let declared ← ofForcing (fields.resolve host)
    inside ref do
      declared.forM fun (name, definition) => field recurse ref name definition
      if resolved.strict then undeclared ref (declared.map Prod.fst) else pure ()

/-- Whether the field of an object is there and not null. -/
def hasField (ref : Ref) (name : String) : Check σ Bool :=
  readHeap fun heap => !(heap.get (.object ref) (.key name)).isAbsent

/-- An object whose fields of the given names are there. -/
def require : Demand σ := fun resolved value =>
  match resolved.node.require with
  | none => pure value
  | some names => withObject resolved value fun ref => names.forM fun name => do
    let present ← hasField ref name
    demandAt (.key name) present .missing

/-- An object whose fields of the given names are not there. -/
def restrict : Demand σ := fun resolved value =>
  match resolved.node.restrict with
  | none => pure value
  | some names => withObject resolved value fun ref => names.forM fun name => do
    let present ← hasField ref name
    demandAt (.key name) (!present) .restricted

/-! ## Items and entries -/

/-- Checks one item of an array and puts what comes of it in its place. -/
def item (recurse : Recurse σ) (ref : Ref) (definition : Definition) (value : Value)
    (i : Nat) : Check σ Unit := do
  let checked ← under (.index i) (recurse value definition)
  changeHeap (·.setItem ref i checked)

/-- Checks one entry of an object and puts what comes of it in its place. -/
def entry (recurse : Recurse σ) (ref : Ref) (definition : Definition) (name : String)
    (value : Value) : Check σ Unit := do
  let checked ← under (.key name) (recurse value definition)
  changeHeap (·.insertField ref name checked)

/-- An array or object all of whose parts are as defined.  The parts are those at the
beginning, whatever becomes of the container meanwhile. -/
def items (recurse : Recurse σ) : Demand σ := fun resolved value =>
  match resolved.node.items, value with
  | none, _ => pure value
  | some definition, .array ref => do
    inside ref do
      let items ← readHeap (·.items ref)
      items.zipIdx.forM fun (value, i) => item recurse ref definition value i
    return value
  | some definition, .object ref => do
    inside ref do
      let entries ← readHeap fun heap => (heap.fields ref).entries
      entries.forM fun (name, value) => entry recurse ref definition name value
    return value
  | some _, _ => do
    report .notIterable []
    return value

/-! ## Alternatives -/

/-- The violations of a copy of the value against an alternative. -/
def tryAlternative (recurse : Recurse σ) (value : Value) (alternative : Definition) :
    Check σ (List Violation) := do
  let (copy, copies) ← ofRun (Run.ofHeap value.copyWithOrigins)
  trial copies (recurse copy alternative)

/-- Checks the value against the first of the alternatives that a copy of it meets.
If there is none, complains with the violations of all. -/
def alternatives (recurse : Recurse σ) (value : Value) :
    List (List Violation) → List Definition → Check σ Value
  | failures, [] => do
    report .noAlternative failures
    return value
  | failures, alternative :: rest => do
    let violations ← tryAlternative recurse value alternative
    -- The trial has changed nothing but copies; what the alternative makes of the value
    -- itself comes from this second run.
    if violations.isEmpty then recurse value alternative
    else alternatives recurse value (failures ++ [violations]) rest

/-- A value that meets at least one alternative. -/
def either (recurse : Recurse σ) : Demand σ := fun resolved value =>
  match resolved.node.either with
  | none => pure value
  | some definitions => alternatives recurse value [] definitions

/-! ## The last step -/

/-- What the last step makes of the value. -/
def custom (host : Host σ) : Demand σ := fun resolved value =>
  match resolved.node.custom with
  | none => pure value
  | some transform => do
    let result ← ofRun (transform.apply host value)
    match result with
    | .ok value => return value
    | .error reason =>
      report (.refused reason) []
      return value

/-- All demands, in the order in which they are taken. -/
def keywords (host : Host σ) (recurse : Recurse σ) : List (Demand σ) :=
  [type, oneOf, bounds, either recurse, schema host recurse, require, restrict,
    items recurse, custom host]

end Conform.Check
