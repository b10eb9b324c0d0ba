import Conform.Definition.Basic

/-!
# Definitions from documents

A string is the name of a type, and an object is a node whose members are
keywords.  Members are read in the order in which they are written, and the first
that cannot be read decides the fault.  Two pairs of keywords are other names for
each other, and only one of a pair may be used.

## Main definitions

* `Definition.ofJson`: the definition that a document stands for.
-/

namespace Conform.Definition

/-- A keyword's argument that must be a boolean. -/
def boolArgument (keyword : String) (argument : Json) : Except DefinitionError Bool :=
  match argument.bool? with
  | some b => .ok b
  | none => .error (.invalidArgument keyword "expected a boolean")

/-- The argument of `type`. -/
def typeArgument (keyword : String) (argument : Json) : Except DefinitionError TypeName :=
  match argument.text? with
  | some name => TypeName.ofText name
  | none => .error (.invalidArgument keyword "expected a type name")

/-- The argument of `in`. -/
def allowedArgument (keyword : String) (argument : Json) : Except DefinitionError (List Json) :=
  match argument.items? with
  | some items => .ok items
  | none => .error (.invalidArgument keyword "expected an array")

/-- Adds one member of the argument of `bounds`. -/
def boundMember (bounds : Bounds) (member : String × Json) : Except DefinitionError Bounds := do
  let comparator ← Comparator.ofText member.1
  match member.2.float? with
  | some bound => return bounds.set comparator bound
  | none =>
    throw (.invalidArgument "bounds" (DefinitionError.marked member.1 ++ " expects a number"))

/-- The argument of `bounds`. -/
def boundsArgument (keyword : String) : Json → Except DefinitionError Bounds
  | .object members => members.foldlM boundMember {}
  | _ => .error (.invalidArgument keyword "expected an object of comparators")

/-- One name in the argument of `require` or `restrict`. -/
def nameArgument (keyword : String) (name : Json) : Except DefinitionError String :=
  match name.text? with
  | some name => .ok name
  | none => .error (.invalidArgument keyword "field names must be strings")

/-- The argument of `require` or `restrict`. -/
def namesArgument (keyword : String) (argument : Json) : Except DefinitionError (List String) :=
  match argument.items? with
  | some names => names.mapM (nameArgument keyword)
  | none => .error (.invalidArgument keyword "expected an array of field names")

/-- The fault of using two names of one keyword. -/
def aliasConflict (first second : Keyword) : DefinitionError :=
  .invalidArgument first.text
    (DefinitionError.marked first.text ++ " and " ++ DefinitionError.marked second.text ++
      " are aliases; declare only one")

mutual

/-- The definition that a document stands for. -/
def ofJson : Json → Except DefinitionError Definition
  | .string name => return .shorthand (← TypeName.ofText name)
  | .object members => return .node (← nodeOfMembers {} members)
  | json => .error (.notADefinition json.kind)

/-- Sets the keywords of a node from the members of an object. -/
def nodeOfMembers (node : Node Definition) :
    List (String × Json) → Except DefinitionError (Node Definition)
  | [] => .ok node
  | (name, argument) :: rest => do
    let node ← match Keyword.ofText? name with
      | none => throw (.unknownKeyword name)
      | some .optional => do pure { node with optional := ← boolArgument name argument }
      | some .required => do pure { node with required := some (← boolArgument name argument) }
      | some .strict => do pure { node with strict := some (← boolArgument name argument) }
      | some .default => pure { node with fallback := some (.literal argument) }
      | some .type => do pure { node with kind := some (← typeArgument name argument) }
      | some .schema | some .properties =>
        if node.schema.isSome then throw (aliasConflict .schema .properties)
        else do pure { node with schema := some (.declared (← fieldsOfJson name argument)) }
      | some .items => do pure { node with items := some (← ofJson argument) }
      | some .oneOf | some .enumeration =>
        if node.allowed.isSome then throw (aliasConflict .oneOf .enumeration)
        else do pure { node with allowed := some (← allowedArgument name argument) }
      | some .bounds => do pure { node with bounds := some (← boundsArgument name argument) }
      | some .either => do pure { node with either := some (← alternativesOfJson name argument) }
      | some .require => do pure { node with require := some (← namesArgument name argument) }
      | some .restrict => do pure { node with restrict := some (← namesArgument name argument) }
      | some .custom =>
        throw (.invalidArgument name "transforms cannot be expressed in JSON")
    nodeOfMembers node rest

/-- The argument of `schema`. -/
def fieldsOfJson (keyword : String) :
    Json → Except DefinitionError (List (String × Definition))
  | .object members => fieldsOfMembers members
  | _ => .error (.invalidArgument keyword "expected an object of field definitions")

/-- The fields that the members of an object stand for. -/
def fieldsOfMembers :
    List (String × Json) → Except DefinitionError (List (String × Definition))
  | [] => .ok []
  | (name, json) :: rest => return (name, ← ofJson json) :: (← fieldsOfMembers rest)

/-- The argument of `either`. -/
def alternativesOfJson (keyword : String) : Json → Except DefinitionError (List Definition)
  | .array [] => .error (.invalidArgument keyword "expected at least one alternative")
  | .array items => alternativesOfItems 0 items
  | _ => .error (.invalidArgument keyword "expected an array of definitions")

/-- The alternatives that the items of an array stand for, counted from `index`. -/
def alternativesOfItems (index : Nat) : List Json → Except DefinitionError (List Definition)
  | [] => .ok []
  | json :: rest =>
    match ofJson json with
    | .ok alternative => return alternative :: (← alternativesOfItems (index + 1) rest)
    | .error fault => .error (.malformedEither index fault)

end

end Conform.Definition
