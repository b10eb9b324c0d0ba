import Conform.Value.Heap
import Conform.Calendar.Rfc3339

/-!
# Values as documents

A value is written as a document: moments as timestamps, functions and numbers
without digits as null.  A container that is met again inside itself is cut off
as null; one that is merely shared is written out wherever it occurs.

The containers on the way down are all different, so the depth of the document is
bounded by the size of the heap.

## Main definitions

* `Value.toJson`: the document of a value.
-/

namespace Conform.Value

/-- The document of a value inside the containers `entered`. -/
def toJsonWithin (heap : Heap) : Nat → List Ref → Value → Json
  | 0, _, _ => .null
  | depth + 1, entered, value =>
    match value with
    | .null => .null
    | .bool b => .bool b
    | .number x => .ofFloat x
    | .string s => .string s
    | .dateTime moment => .string (Rfc3339.write moment)
    | .function _ => .null
    | .array ref =>
      if ref ∈ entered then .null
      else .array ((heap.items ref).map (toJsonWithin heap depth (ref :: entered)))
    | .object ref =>
      if ref ∈ entered then .null
      else .object (Entries.mapValues (toJsonWithin heap depth (ref :: entered))
        (heap.fields ref).entries)

/-- The document of a value. -/
def toJson (heap : Heap) (value : Value) : Json := toJsonWithin heap (heap.size + 2) [] value

end Conform.Value
