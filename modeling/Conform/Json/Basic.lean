import Conform.OrderedMap
import Conform.Number

/-!
# JSON documents

Definitions and literals are given as JSON documents.  Members of an object keep
the order in which they were written, and a number remembers whether it was
written as an integer, because both show when the document is written again.

## Main definitions

* `Json`: a document.
* `Json.Number.toFloat`: the double that a number stands for.
* `Json.kind`: the name of a document's kind.
-/

namespace Conform

/-- A number: an integer as it was written, or a double. -/
inductive Json.Number where
  | integer (n : Int)
  | real (x : Float)
  deriving DecidableEq

/-- A JSON document. -/
inductive Json where
  | null
  | bool (b : Bool)
  | number (n : Json.Number)
  | string (s : String)
  | array (items : List Json)
  | object (members : List (String × Json))

namespace Json

instance : Inhabited Json := ⟨.null⟩

/-- The double nearest to a number. -/
def Number.toFloat : Number → Float
  | .integer n => Number.ofInt n
  | .real x => x

/-- A double that is an integer well inside the range that doubles resolve is
written as that integer; a number without digits becomes null. -/
def ofFloat (x : Float) : Json :=
  match Number.safeWhole? x with
  | some n => .number (.integer n)
  | none => if x.isFinite then .number (.real x) else .null

/-- A double kept as a double; one without digits becomes null. -/
def ofReal (x : Float) : Json :=
  if x.isFinite then .number (.real x) else .null

/-- The name of a document's kind. -/
def kind : Json → String
  | .null => "null"
  | .bool _ => "boolean"
  | .number _ => "number"
  | .string _ => "string"
  | .array _ => "array"
  | .object _ => "object"

/-- The items of an array. -/
def items? : Json → Option (List Json)
  | .array items => some items
  | _ => none

/-- The text of a string. -/
def text? : Json → Option String
  | .string s => some s
  | _ => none

/-- The truth value of a boolean. -/
def bool? : Json → Option Bool
  | .bool b => some b
  | _ => none

/-- The double that a number stands for. -/
def float? : Json → Option Float
  | .number n => some n.toFloat
  | _ => none

end Json

end Conform
