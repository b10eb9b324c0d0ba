import Conform.Definition.Basic

/-!
# The grammar of definitions

A definition, once it is written out as a value, is itself checked: it must be a
function, the name of a type, or an object whose members are keywords with fitting
arguments.  These rules are themselves a definition, which refers to itself where
definitions nest.

Every argument may be missing, as a keyword may, and so may be null.

## Main definitions

* `Definition.grammar`: what every definition conforms to.
-/

namespace Conform.Definition

namespace Grammar

/-- Any definition. -/
def anyDefinition : Definition := .deferred .grammar

/-- The name of a type. -/
def typeName : Node Definition :=
  { kind := some .string
    allowed := some (TypeName.all.map fun type => .string type.text) }

/-- A truth value. -/
def flag : Definition := .node { kind := some .boolean, optional := true }

/-- A function, or an object of definitions. -/
def fields : Definition :=
  .node
    { optional := true
      either := some
        [.shorthand .function, .node { kind := some .object, items := some anyDefinition }] }

/-- A list of names. -/
def names : Definition :=
  .node { kind := some .array, optional := true, items := some (.shorthand .string) }

/-- A bound for each comparison. -/
def bounds : Definition :=
  .node
    { kind := some .object
      optional := true
      strict := some true
      schema := some <| .declared <| Comparator.all.map fun comparator =>
        (comparator.text, .node { kind := some .number, optional := true }) }

/-- A list of definitions that is not empty. -/
def alternatives : Definition :=
  .node
    { kind := some .array
      optional := true
      items := some anyDefinition
      custom := some .nonEmpty }

/-- What the argument of a keyword conforms to. -/
def argument : Keyword → Definition
  | .optional | .required | .strict => flag
  | .type => .node { typeName with optional := true }
  | .schema | .properties => fields
  | .items => .node { optional := true, either := some [anyDefinition] }
  | .oneOf | .enumeration => .node { kind := some .array, optional := true }
  | .bounds => bounds
  | .either => alternatives
  | .require | .restrict => names
  | .custom => .node { kind := some .function, optional := true }
  | .default => .node { optional := true }

/-- An object of keywords. -/
def keywords : Node Definition :=
  { kind := some .object
    strict := some true
    schema := some (.declared (Keyword.all.map fun keyword => (keyword.text, argument keyword))) }

end Grammar

/-- What every definition conforms to, once it is written out as a value. -/
def grammar : Definition :=
  .node
    { either := some
        [.shorthand .function, .node Grammar.typeName, .node Grammar.keywords] }

end Conform.Definition
