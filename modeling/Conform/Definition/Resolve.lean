import Conform.Definition.Host

/-!
# Resolving definitions

Before a definition is used, thunks are forced until a node is found, and what the
node leaves open is decided: a value is required unless it is optional, and the
policy says whether objects are strict.

## Main definitions

* `Policy`: what definitions leave open.
* `Resolved`: a node with nothing left open.
* `resolve`: the node of a definition.
-/

namespace Conform

/-- What definitions leave open. -/
structure Policy where
  /-- Whether objects are strict if their definition does not say. -/
  defaultStrict : Bool := false
  /-- Whether a default may stand in for the value that is checked as a whole. -/
  allowRootDefault : Bool := true
  deriving DecidableEq, Repr

/-- Strict objects, and no default for the value as a whole. -/
def Policy.strict : Policy := ⟨true, false⟩

/-- A node with nothing left open. -/
structure Resolved where
  /-- The keywords. -/
  node : Node Definition
  /-- Whether the value must be present. -/
  required : Bool
  /-- Whether the value may have no fields but those of the schema. -/
  strict : Bool

/-- Decides what a node leaves open. -/
def Policy.complete (policy : Policy) (node : Node Definition) : Resolved :=
  ⟨node, node.required.getD !node.optional, node.strict.getD policy.defaultStrict⟩

/-- The number of thunks that may be forced one after the other. -/
def maxThunkChain : Nat := 64

variable {σ : Type}

/-- The node of a definition, forcing at most the given number of thunks. -/
def Definition.unfold (host : Host σ) : Nat → Definition → Forcing σ (Node Definition)
  | _, .node keywords => pure keywords
  | _, .shorthand type => pure (.ofType type)
  | 0, .deferred _ => throw (.thunkChainTooDeep maxThunkChain)
  | more + 1, .deferred thunk => do unfold host more (← thunk.force host)

/-- The node of a definition with nothing left open. -/
def resolve (host : Host σ) (policy : Policy) (definition : Definition) :
    Forcing σ Resolved := do
  return policy.complete (← definition.unfold host maxThunkChain)

end Conform
