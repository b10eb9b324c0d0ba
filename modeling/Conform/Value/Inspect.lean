import Conform.Json.Printer
import Conform.Text.Quoted
import Conform.Value.ToJson

/-!
# Inspected values

The form in which a value is shown to someone who inspects it: the kind, and the
contents in the layout that suits the kind.
-/

namespace Conform.Value

/-- A value as it is shown. -/
def inspect (heap : Heap) (value : Value) : String :=
  match value with
  | .null => "Null"
  | .bool b => Text.enclosed "Bool(" ")" [Text.inspectBool b]
  | .number x => Text.enclosed "Number(" ")" [Decimal.plain.write x]
  | .string s => Text.enclosed "String(" ")" [Text.inspect s]
  | .dateTime moment => Text.enclosed "DateTime(" ")" [Rfc3339.write moment]
  | .array _ => Text.enclosed "Array(" ")" [(value.toJson heap).render]
  | .object _ => Text.enclosed "Object(" ")" [(value.toJson heap).render]
  | .function _ => "Function"

end Conform.Value
