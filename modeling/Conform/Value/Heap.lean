import Conform.Deferred
import Conform.Json.Basic
import Conform.Value.Accessor
import Conform.Value.Basic

/-!
# The heap

Arrays and objects live in one table, and a reference is a place in it.  A new
container takes the next place, and no place is ever given up, so a reference
names the same container for good.  Functions have a table of their own.

A reference that leads nowhere, or to a container of the other kind, reads as an
empty container, and writing through it changes nothing.

## Main definitions

* `Heap`: the tables.
* `Heap.fetch`, `Heap.items`, `Heap.fields`: reading.
* `Heap.push`, `Heap.setItem`, `Heap.insertField`, `Heap.eraseField`: writing.
* `Heap.replaceField`, `Heap.takeField`: writing a field and handing out what it was.
* `Heap.get`, `Heap.set`: reading and writing by one step from a value.
* `Value.ofJson`: a new value with the contents of a document.
-/

namespace Conform

/-- All containers and functions. -/
structure Heap where
  containers : Array Container := #[]
  functions : Array Callable := #[]

instance : Inhabited Heap := ⟨{}⟩

/-- A computation that may add to the heap and change it. -/
abbrev HeapM := StateM Heap

namespace Heap

/-- The number of containers. -/
def size (heap : Heap) : Nat := heap.containers.size

/-! ## Containers -/

/-- What a reference leads to. -/
def fetch (heap : Heap) (ref : Ref) : Container := heap.containers.getD ref (.array [])

/-- Puts new contents behind a reference. -/
def store (heap : Heap) (ref : Ref) (container : Container) : Heap :=
  { heap with containers := heap.containers.setIfInBounds ref container }

/-- Adds a container. -/
def allocate (container : Container) : HeapM Ref :=
  fun heap => (heap.size, { heap with containers := heap.containers.push container })

/-- Adds an array. -/
def newArray (items : List Value) : HeapM Value :=
  return .array (← allocate (.array items))

/-- Adds an object. -/
def newObject (fields : OrderedMap Value) : HeapM Value :=
  return .object (← allocate (.object fields))

/-- Adds a function. -/
def newFunction (callable : Callable) : HeapM Value :=
  fun heap =>
    (.function heap.functions.size, { heap with functions := heap.functions.push callable })

/-! ## Arrays -/

/-- The items of an array. -/
def items (heap : Heap) (ref : Ref) : List Value := (heap.fetch ref).items

/-- Changes the items of an array. -/
def modifyItems (heap : Heap) (ref : Ref) (f : List Value → List Value) : Heap :=
  { heap with
    containers := heap.containers.modify ref fun
      | .array items => .array (f items)
      | .object fields => .object fields }

/-- Appends an item. -/
def push (heap : Heap) (ref : Ref) (value : Value) : Heap :=
  heap.modifyItems ref (· ++ [value])

/-- Replaces the item at an index, if there is one. -/
def setItem (heap : Heap) (ref : Ref) (i : Nat) (value : Value) : Heap :=
  heap.modifyItems ref (·.set i value)

/-! ## Objects -/

/-- The fields of an object. -/
def fields (heap : Heap) (ref : Ref) : OrderedMap Value := (heap.fetch ref).fields

/-- Changes the fields of an object. -/
def modifyFields (heap : Heap) (ref : Ref) (f : OrderedMap Value → OrderedMap Value) : Heap :=
  { heap with
    containers := heap.containers.modify ref fun
      | .array items => .array items
      | .object fields => .object (f fields) }

/-- Gives a field a value. -/
def insertField (heap : Heap) (ref : Ref) (name : String) (value : Value) : Heap :=
  heap.modifyFields ref (·.insert name value)

/-- Removes a field. -/
def eraseField (heap : Heap) (ref : Ref) (name : String) : Heap :=
  heap.modifyFields ref (·.erase name)

/-- Gives a field a value, and hands out the one that it had. -/
def replaceField (ref : Ref) (name : String) (value : Value) : HeapM (Option Value) :=
  fun heap =>
    let (previous, fields) := (heap.fields ref).getThenInsert? name value
    (previous, heap.modifyFields ref fun _ => fields)

/-- Removes a field, and hands out the value that it had. -/
def takeField (ref : Ref) (name : String) : HeapM (Option Value) :=
  fun heap =>
    let (removed, fields) := (heap.fields ref).getThenErase? name
    (removed, heap.modifyFields ref fun _ => fields)

/-! ## Steps -/

/-- The part of a value that one step leads to, if there is one. -/
def step? (heap : Heap) (value : Value) (accessor : Accessor) : Option Value :=
  match value, accessor with
  | .object ref, .key name => (heap.fields ref).get? name
  | .array ref, .index i => (heap.items ref)[i]?
  | _, _ => none

/-- The part of a value that one step leads to; a missing part is null. -/
def get (heap : Heap) (value : Value) (accessor : Accessor) : Value :=
  (heap.step? value accessor).getD .null

/-- Writes the part of a value that one step leads to.  An object takes any key;
an array only the indices it has.  Nothing is returned when the value has no place
for the step. -/
def set? (heap : Heap) (value : Value) (accessor : Accessor) (part : Value) : Option Heap :=
  match value, accessor with
  | .object ref, .key name => some (heap.insertField ref name part)
  | .array ref, .index i =>
    if i < (heap.items ref).length then some (heap.setItem ref i part) else none
  | _, _ => none

end Heap

/-! ## Documents as values -/

mutual

/-- A new value with the contents of a document: every array and object of the
document becomes a container of its own. -/
def Value.ofJson : Json → HeapM Value
  | .null => return .null
  | .bool b => return .bool b
  | .number n => return .number n.toFloat
  | .string s => return .string s
  | .array items => do Heap.newArray (← Value.ofItems items)
  | .object members => do Heap.newObject (.ofList (← Value.ofMembers members))

/-- New values with the contents of the items of an array. -/
def Value.ofItems : List Json → HeapM (List Value)
  | [] => return []
  | item :: rest => return (← Value.ofJson item) :: (← Value.ofItems rest)

/-- New values with the contents of the members of an object. -/
def Value.ofMembers : List (String × Json) → HeapM (List (String × Value))
  | [] => return []
  | (name, member) :: rest => return (name, ← Value.ofJson member) :: (← Value.ofMembers rest)

end

end Conform
