import Conform.Definition.Lower
import Conform.Definition.OfJson
import Conform.Validation.Engine

/-!
# Validators

A validator keeps a definition together with the way in which values are checked
against it.  Unless it is told not to, it first checks the definition, written out
as a value, against the grammar of definitions.

## Main definitions

* `Validator`: a definition and how it is used.
* `Validator.grammar`: the validator of definitions.
* `Validator.make`, `Validator.ofJson`: new validators.
* `Validator.accept`, `Validator.errors`: using one.
-/

namespace Conform

/-- How a validator is made and used. -/
structure Settings where
  /-- How values are checked. -/
  options : Options := {}
  /-- Whether the definition itself is checked. -/
  selfCheck : Bool := true
  deriving DecidableEq, Repr

/-- A definition and how it is used. -/
structure Validator where
  definition : Definition
  settings : Settings := {}

namespace Validator

variable {σ : Type}

/-- The violations of a value, if there are any. -/
def errors (host : Host σ) (validator : Validator) (value : Value) :
    Run σ (Except ValidationError (Option (List Violation))) :=
  validate host validator.settings.options value validator.definition

/-- The value as the keywords have left it, if there are no violations. -/
def accept (host : Host σ) (validator : Validator) (value : Value) :
    Run σ (Except ValidationError Value) := do
  match ← check host validator.settings.options value validator.definition with
  | .ok outcome =>
    if outcome.isValid then return .ok outcome.value
    else return .error (.rejected outcome.violations)
  | .error fault => return .error fault

/-- The validator of definitions that are written out as values. -/
def grammar : Validator :=
  ⟨Definition.grammar, { options := { root := "definition" }, selfCheck := false }⟩

/-- The fault of a definition that does not conform to the grammar. -/
def invalid (violations : List Violation) : DefinitionError :=
  .invalid (violations.flatMap Violation.flatten)

/-- Checks a definition that is written out as a value. -/
def checkGrammar (host : Host σ) (lowered : Value) : Run σ (Except DefinitionError Unit) := do
  match ← grammar.errors host lowered with
  | .ok none => return .ok ()
  | .ok (some violations) => return .error (invalid violations)
  | .error (.definition fault) => return .error fault
  | .error fault => return .error (invalid fault.violations)

/-- Goes on only with a definition that conforms to the grammar, where that is asked
for. -/
def withGrammar (host : Host σ) (settings : Settings) (lower : HeapM Value)
    (validator : Except DefinitionError Validator) : Run σ (Except DefinitionError Validator) := do
  if settings.selfCheck then
    match ← checkGrammar host (← Run.ofHeap lower) with
    | .ok () => return validator
    | .error fault => return .error fault
  else return validator

/-- The validator of a definition. -/
def make (host : Host σ) (settings : Settings) (definition : Definition) :
    Run σ (Except DefinitionError Validator) :=
  withGrammar host settings definition.toValue (.ok ⟨definition, settings⟩)

/-- The validator of the definition that a document stands for.  The document is
checked against the grammar as it is, before it is read. -/
def ofJson (host : Host σ) (settings : Settings) (json : Json) :
    Run σ (Except DefinitionError Validator) :=
  withGrammar host settings (Value.ofJson json)
    ((Definition.ofJson json).map fun definition => ⟨definition, settings⟩)

end Validator

end Conform
