/-!
# Faults of definitions

What can be wrong with a definition, when it is read, resolved, checked against
the grammar or used.

## Main definitions

* `DefinitionError`: the faults.
* `DefinitionError.message`: their wording.
-/

namespace Conform

/-- What is wrong with a definition. -/
inductive DefinitionError where
  /-- A member of a definition that is no keyword. -/
  | unknownKeyword (name : String)
  /-- A type that there is not. -/
  | unknownType (name : String)
  /-- A bound by a comparison that there is not. -/
  | unknownComparator (name : String)
  /-- A keyword with an argument of the wrong form. -/
  | invalidArgument (keyword reason : String)
  /-- An alternative, counted from zero, that is no definition. -/
  | malformedEither (index : Nat) (source : DefinitionError)
  /-- A document of a kind that no definition has. -/
  | notADefinition (kind : String)
  /-- A default for a value without a container around it, where that is not
  allowed. -/
  | rootDefault (path : String)
  /-- A thunk that yields a thunk, and so on beyond the given number. -/
  | thunkChainTooDeep (limit : Nat)
  /-- A definition that leads back to itself without a step into the value. -/
  | leftRecursion (path : String)
  /-- A definition that does not conform to the grammar. -/
  | invalid (messages : List String)
  deriving DecidableEq

namespace DefinitionError

instance : Inhabited DefinitionError := ⟨.invalid []⟩

/-- A word between marks of quotation. -/
def marked (word : String) : String := "`" ++ word ++ "`"

/-- The wording of a fault. -/
def message : DefinitionError → String
  | .unknownKeyword name => "unknown keyword " ++ marked name
  | .unknownType name => "unknown type " ++ marked name
  | .unknownComparator name => "unknown bounds comparator " ++ marked name
  | .invalidArgument keyword reason => "invalid argument for " ++ marked keyword ++ ": " ++ reason
  | .malformedEither index source =>
    "malformed either alternative #" ++ toString index ++ ": " ++ source.message
  | .notADefinition kind => "a definition must be a type name or an object, found " ++ kind
  | .rootDefault path =>
    "default is only valid for composed values (no parent container at " ++ path ++ ")"
  | .thunkChainTooDeep limit => "thunk chain exceeds " ++ toString limit ++ " indirections"
  | .leftRecursion path =>
    "definition recurses at " ++ path ++ " without descending into the value"
  | .invalid messages => "invalid definition: " ++ String.intercalate "; " messages

end DefinitionError

end Conform
