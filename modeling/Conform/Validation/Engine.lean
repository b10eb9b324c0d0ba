import Conform.Validation.Keywords

/-!
# Checking values

A value is checked against a definition by resolving the definition, letting its
default stand in for an absent value, and taking its keywords in turn.  What comes
out is the value as the keywords have left it, with all violations.  Containers are
changed in place, also where violations are found.

A definition may refer to itself, so how deep definitions nest in a value is not
known beforehand.  The check is given a bound; the one that `check` gives exceeds
what the definition and the heap can account for by a large reserve, which only
defaults and transforms can use up.

## Main definitions

* `checkWithin`: the check of a value within a bound.
* `check`: the value and violations that a check comes to.
* `validate`: the violations alone.
-/

namespace Conform

variable {σ : Type}

namespace Check

/-- Lets the default stand in for an absent value. -/
def supply (host : Host σ) (resolved : Resolved) (value : Value) : Check σ Value :=
  match value, resolved.node.fallback with
  | .null, some fallback => do
    let refused ← readContext fun context =>
      context.atRoot && !context.options.policy.allowRootDefault
    if refused then do
      let path ← readContext Context.pathText
      throw (.definition (.rootDefault path))
    else ofRun (fallback.produce host)
  | value, _ => pure value

/-- Takes the keywords of a node in turn, if there is a value. -/
def demands (host : Host σ) (recurse : Recurse σ) (resolved : Resolved) (value : Value) :
    Check σ Value :=
  if value.isAbsent then do
    demand (!resolved.required) .missing
    return value
  else (keywords host recurse).foldlM (fun value keyword => keyword resolved value) value

/-- Checks a value against a definition that has been taken up. -/
def node (host : Host σ) (recurse : Recurse σ) (value : Value) (definition : Definition) :
    Check σ Value := do
  let policy ← readContext fun context => context.options.policy
  let resolved ← ofForcing (resolve host policy definition)
  let value ← supply host resolved value
  demands host recurse resolved value

end Check

/-- Checks a value against a definition in which at most `depth` definitions nest. -/
def checkWithin (host : Host σ) : Nat → Value → Definition → Check σ Value
  | 0, _, _ => throw .exhausted
  | depth + 1, value, definition =>
    Check.visiting (Check.node host (checkWithin host depth) value definition)

/-- What a check comes to. -/
structure Outcome where
  /-- The value as the keywords have left it. -/
  value : Value
  /-- The violations, in the order in which they were found. -/
  violations : List Violation
  deriving DecidableEq

namespace Outcome

/-- Whether the value conforms to the definition. -/
def isValid (outcome : Outcome) : Bool := outcome.violations.isEmpty

/-- The violations, if there are any. -/
def violations? (outcome : Outcome) : Option (List Violation) :=
  if outcome.violations.isEmpty then none else some outcome.violations

end Outcome

/-- The definitions that may nest beyond what the definition and the heap account
for. -/
def nestingReserve : Nat := 1000000

/-- The bound on how deep definitions nest: a definition without deferred parts
nests no deeper than it is written, and at one place of the value there are never
more than `maxNesting`. -/
def nestingBound (heap : Heap) (definition : Definition) : Nat :=
  definition.depth + maxNesting * (heap.size + 1) + nestingReserve

/-- What a check has come to when it ends. -/
def Check.outcome :
    EStateM.Result ValidationError (Session σ) Value → Except ValidationError Outcome × World σ
  | .ok value session => (.ok ⟨value, session.context.violations⟩, session.world)
  | .error fault session => (.error fault, session.world)

/-- Checks a value against a definition. -/
def check (host : Host σ) (options : Options) (value : Value) (definition : Definition) :
    Run σ (Except ValidationError Outcome) := fun world =>
  -- The bound is taken before the check adds to the heap.
  Check.outcome
    (checkWithin host (nestingBound world.heap definition) value definition ⟨.start options, world⟩)

/-- The violations of a value, if there are any. -/
def validate (host : Host σ) (options : Options) (value : Value) (definition : Definition) :
    Run σ (Except ValidationError (Option (List Violation))) := do
  return (← check host options value definition).map Outcome.violations?

end Conform
