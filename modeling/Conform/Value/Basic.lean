import Conform.OrderedMap
import Conform.Calendar.DateTime

/-!
# Values

A value is a scalar, a moment, or a reference: to an array or an object, whose
contents lie in a heap, or to a function.  Two references to one container are
the same container, so values may share parts and may contain themselves.

## Main definitions

* `Value`: a value.
* `Container`: what a container reference leads to.
-/

namespace Conform

/-- The identity of an array or object. -/
abbrev Ref := Nat

/-- The identity of a function. -/
abbrev FunctionRef := Nat

/-- A value; null also stands for a value that is absent. -/
inductive Value where
  | null
  | bool (b : Bool)
  | number (x : Float)
  | string (s : String)
  | dateTime (moment : DateTime)
  | array (ref : Ref)
  | object (ref : Ref)
  | function (ref : FunctionRef)
  deriving DecidableEq

namespace Value

instance : Inhabited Value := ⟨.null⟩

/-- Whether a value stands for nothing. -/
def isAbsent : Value → Bool
  | .null => true
  | _ => false

/-- The name of a value's kind. -/
def kind : Value → String
  | .null => "null"
  | .bool _ => "boolean"
  | .number _ => "number"
  | .string _ => "string"
  | .dateTime _ => "datetime"
  | .array _ => "array"
  | .object _ => "object"
  | .function _ => "function"

/-- The container behind a value, if it is one. -/
def ref? : Value → Option Ref
  | .array ref => some ref
  | .object ref => some ref
  | _ => none

/-- Renames the container behind a value. -/
def mapRef (f : Ref → Ref) : Value → Value
  | .array ref => .array (f ref)
  | .object ref => .object (f ref)
  | value => value

@[simp] theorem isAbsent_iff (value : Value) : value.isAbsent ↔ value = .null := by
  cases value <;> simp [isAbsent]

end Value

/-- The contents of an array or object. -/
inductive Container where
  | array (items : List Value)
  | object (fields : OrderedMap Value)

namespace Container

instance : Inhabited Container := ⟨.array []⟩

/-- The items of an array; an object has none. -/
def items : Container → List Value
  | .array items => items
  | .object _ => []

/-- The fields of an object; an array has none. -/
def fields : Container → OrderedMap Value
  | .array _ => .empty
  | .object fields => fields

/-- The values that a container holds, in order. -/
def children : Container → List Value
  | .array items => items
  | .object fields => fields.entries.map Prod.snd

/-- Applies a function to every value held. -/
def mapValues (f : Value → Value) : Container → Container
  | .array items => .array (items.map f)
  | .object fields => .object (fields.mapValues f)

@[simp] theorem children_mapValues (f : Value → Value) (container : Container) :
    (container.mapValues f).children = container.children.map f := by
  cases container <;>
    simp [children, mapValues, OrderedMap.mapValues, Entries.mapValues]

end Container

end Conform
