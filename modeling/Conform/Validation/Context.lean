import Conform.Definition.Resolve
import Conform.Validation.Violation
import Conform.Value.Accessor

/-!
# Where a check stands

While a value is checked, the context holds the way to the part being checked, the
containers on that way, and the violations found so far.  Alternatives are tried on
copies, and the context knows which container each copy was made from, so that a
container inside its own copy is still known for the same.

## Main definitions

* `Options`: how a check is done.
* `Context`: where a check stands.
* `Context.originOf`: the container that a copy was made from.
* `Context.fork`: the context of a trial.
-/

namespace Conform

/-- How a check is done. -/
structure Options where
  /-- The name of the value, with which all paths begin. -/
  root : String := "value"
  /-- Whether the check stops at the first violation. -/
  assert : Bool := false
  /-- What definitions leave open. -/
  policy : Policy := {}
  deriving DecidableEq, Repr

/-- Where a check stands. -/
structure Context where
  /-- How the check is done. -/
  options : Options
  /-- The steps to the part being checked, the last one first. -/
  path : List Accessor := []
  /-- The containers on the way, the innermost first; copies count as their
  originals. -/
  ancestors : List Ref := []
  /-- Every copy on which an alternative is tried, with its original. -/
  origins : List (Ref × Ref) := []
  /-- The length of the path at every definition under way, the innermost first. -/
  visits : List Nat := []
  /-- The violations so far. -/
  violations : List Violation := []
  /-- Whether the next violation ends the check. -/
  asserting : Bool

/-- The number of definitions that may be under way at one place of the value. -/
def maxNesting : Nat := 64

namespace Context

/-- Where a check begins. -/
def start (options : Options) : Context := { options, asserting := options.assert }

/-- The text of the path. -/
def pathText (context : Context) : String :=
  context.path.foldr (fun accessor text => text ++ accessor.token) context.options.root

/-- Whether the value as a whole is being checked. -/
def atRoot (context : Context) : Bool := context.path.isEmpty

/-- The container that a copy was made from; any other container is itself. -/
def originOf (context : Context) (ref : Ref) : Ref :=
  match context.origins.find? fun origin => origin.1 == ref with
  | some origin => origin.2
  | none => ref

/-- The number of definitions under way at the present place. -/
def nesting (context : Context) : Nat :=
  (context.visits.takeWhile (· == context.path.length)).length

/-- The context of a trial on copies: it begins without violations and never ends at
one, and it knows the copies. -/
def fork (context : Context) (copies : List (Ref × Ref)) : Context :=
  { context with
    origins := context.origins ++
      copies.map fun (copy, original) => (copy, context.originOf original)
    violations := []
    asserting := false }

end Context

end Conform
