import Conform.Validation.Context

/-!
# Checks in progress

A check runs in a session, which holds its context beside the heap and the state of
the host.  Whatever a part of a check changes in the context on its way in, it
takes back on its way out, also when it fails.

## Main definitions

* `Session`, `Check`: the state of a check, and computations on it.
* `Check.report`, `Check.reportAt`: a violation here, or one step on.
* `Check.demand`, `Check.demandAt`: a violation unless something holds.
* `Check.under`, `Check.inside`, `Check.visiting`: going into a part, a container and
  a definition.
* `Check.trial`: checking on the side.
-/

namespace Conform

/-- The state of a check. -/
structure Session (σ : Type) where
  context : Context
  world : World σ

/-- A part of a check. -/
abbrev Check (σ : Type) := EStateM ValidationError (Session σ)

namespace Check

variable {σ α : Type}

/-! ## The world -/

/-- Runs on the heap and the state of the host. -/
def ofRun (m : Run σ α) : Check σ α := fun session =>
  match session with
  | ⟨context, world⟩ =>
    let (a, world) := m world
    .ok a ⟨context, world⟩

/-- Produces definitions; the fault of a definition ends the check. -/
def ofForcing (m : Forcing σ α) : Check σ α := do
  match ← ofRun (Run.ofForcing m) with
  | .ok a => return a
  | .error fault => throw (.definition fault)

/-- Reads the heap. -/
def readHeap (f : Heap → α) : Check σ α := fun session => .ok (f session.world.heap) session

/-- Changes the heap. -/
def changeHeap (f : Heap → Heap) : Check σ Unit := ofRun fun world =>
  match world with
  | ⟨heap, env⟩ => ((), ⟨f heap, env⟩)

/-! ## The context -/

/-- Reads the context. -/
def readContext (f : Context → α) : Check σ α := fun session => .ok (f session.context) session

/-- Records a violation, or ends the check with it. -/
def add (violation : Violation) : Check σ Unit := fun session =>
  if session.context.asserting then .error (.assertion violation) session
  else
    .ok () { session with
      context := { session.context with
        violations := session.context.violations ++ [violation] } }

/-- Complains about the value here. -/
def report (complaint : Complaint) (inner : List (List Violation)) : Check σ Unit := do
  let path ← readContext Context.pathText
  add (.ofComplaint path complaint inner)

/-- Complains about the part that one step leads to. -/
def reportAt (accessor : Accessor) (complaint : Complaint) : Check σ Unit := do
  let path ← readContext Context.pathText
  add (.ofComplaint (path ++ accessor.token) complaint [])

/-- Complains about the value here unless something holds. -/
def demand (holds : Bool) (complaint : Complaint) : Check σ Unit :=
  if holds then pure () else report complaint []

/-- Complains about the part that one step leads to unless something holds. -/
def demandAt (accessor : Accessor) (holds : Bool) (complaint : Complaint) : Check σ Unit :=
  if holds then pure () else reportAt accessor complaint

/-- Changes the context on the way in and again on the way out. -/
def bracket (enter leave : Context → Context) (m : Check σ α) : Check σ α := fun session =>
  match m { session with context := enter session.context } with
  | .ok a session => .ok a { session with context := leave session.context }
  | .error fault session => .error fault { session with context := leave session.context }

/-- Goes on to the part that one step leads to. -/
def under (accessor : Accessor) (m : Check σ α) : Check σ α :=
  bracket (fun context => { context with path := accessor :: context.path })
    (fun context => { context with path := context.path.tail }) m

/-- Goes into a container, unless the way there has come through it. -/
def inside (ref : Ref) (m : Check σ Unit) : Check σ Unit := do
  let original ← readContext (·.originOf ref)
  let ancestors ← readContext (·.ancestors)
  if original ∈ ancestors then report .cycle []
  else
    bracket (fun context => { context with ancestors := original :: context.ancestors })
      (fun context => { context with ancestors := context.ancestors.tail }) m

/-- Takes up a definition, unless too many are under way at the same place. -/
def visiting (m : Check σ α) : Check σ α := do
  let nesting ← readContext Context.nesting
  if maxNesting ≤ nesting then do
    let path ← readContext Context.pathText
    throw (.definition (.leftRecursion path))
  else
    bracket (fun context => { context with visits := context.path.length :: context.visits })
      (fun context => { context with visits := context.visits.tail }) m

/-- The violations of a check on the side, in which the given copies stand for their
originals. -/
def trial (copies : List (Ref × Ref)) (m : Check σ α) : Check σ (List Violation) :=
  fun session =>
    let context := session.context
    match m { session with context := context.fork copies } with
    | .ok _ session => .ok session.context.violations { session with context }
    | .error fault session => .error fault { session with context }

end Check

end Conform
