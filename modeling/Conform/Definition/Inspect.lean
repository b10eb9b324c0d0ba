import Conform.Definition.Basic
import Conform.Json.Printer
import Conform.Text.Quoted

/-!
# Inspected definitions

The form in which a definition is shown to someone who inspects it: every keyword
of a node in turn, those that are not set as well.
-/

namespace Conform

/-- A type as it is shown. -/
def TypeName.inspect : TypeName → String
  | .string => "String"
  | .number => "Number"
  | .boolean => "Boolean"
  | .array => "Array"
  | .object => "Object"
  | .function => "Function"
  | .dateTime => "DateTime"

/-- A default as it is shown. -/
def Fallback.inspect : Fallback → String
  | .literal json => Text.enclosed "Literal(" ")" [json.render]
  | .produced _ => "Thunk"

/-- Named parts as they are shown, under the name of the whole. -/
def Text.inspectRecord (name : String) (parts : List (String × String)) : String :=
  Text.enclosed (name ++ " \x7b ") " \x7d" (parts.map fun part => part.1 ++ ": " ++ part.2)

/-- Bounds as they are shown. -/
def Bounds.inspect (bounds : Bounds) : String :=
  Text.inspectRecord "Bounds" <| Comparator.all.map fun comparator =>
    (comparator.text,
      Text.inspectOption ((bounds.get? comparator).map Decimal.inspected.write))

/-- Fields as they are shown. -/
def Fields.inspect : Fields String → String
  | .declared fields => Text.inspectMap (fields.map fun field => (Text.inspect field.1, field.2))
  | .deferred _ => "Fields::Lazy"

/-- Names as they are shown. -/
def Text.inspectNames (names : List String) : String :=
  Text.inspectList (names.map Text.inspect)

/-- A node as it is shown, when its sub-definitions are shown so. -/
def Node.inspect (node : Node String) : String :=
  Text.inspectRecord "Node"
    [("optional", Text.inspectBool node.optional),
      ("required", Text.inspectOption (node.required.map Text.inspectBool)),
      ("default", Text.inspectOption (node.fallback.map Fallback.inspect)),
      ("kind", Text.inspectOption (node.kind.map TypeName.inspect)),
      ("schema", Text.inspectOption (node.schema.map Fields.inspect)),
      ("items", Text.inspectOption node.items),
      ("allowed", Text.inspectOption (node.allowed.map fun allowed =>
        Text.inspectList (allowed.map Text.inspectJson))),
      ("bounds", Text.inspectOption (node.bounds.map Bounds.inspect)),
      ("either", Text.inspectOption (node.either.map Text.inspectList)),
      ("strict", Text.inspectOption (node.strict.map Text.inspectBool)),
      ("require", Text.inspectOption (node.require.map Text.inspectNames)),
      ("restrict", Text.inspectOption (node.restrict.map Text.inspectNames)),
      ("custom", Text.inspectOption (node.custom.map fun _ => "Transform"))]

/-- A definition as it is shown. -/
def Definition.inspect : Definition → String :=
  fold (fun type => Text.enclosed "Shorthand(" ")" [type.inspect]) (fun _ => "Thunk")
    fun node => Text.enclosed "Node(" ")" [node.inspect]

end Conform
