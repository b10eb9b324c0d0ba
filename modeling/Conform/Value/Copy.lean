import Conform.Value.Reach

/-!
# Copying values

A copy has new containers throughout and the same shape: parts that were shared
are shared in the copy, and a value that contains itself has a copy that contains
itself.  Functions are not copied.

The new containers take the next places of the heap in the order in which the
old ones are met, so a reference is renamed by its position in that order.

## Main definitions

* `Value.copyWithOrigins`: the copy, and every new container with its original.
* `Value.copy`: the copy alone.
-/

namespace Conform

/-- The place of a container's copy, when the containers `originals` are copied to
the places from `base` on. -/
def Ref.renameTo (originals : List Ref) (base : Nat) (ref : Ref) : Ref :=
  match originals.idxOf? ref with
  | some i => base + i
  | none => ref

namespace Value

/-- Copies a value; also gives every new container with its original, in the order
in which the originals are met. -/
def copyWithOrigins (value : Value) : HeapM (Value × List (Ref × Ref)) := fun heap =>
  let originals := heap.reach value
  -- Each container is listed once, so its position names its copy, and references can be
  -- renamed before all copies are there.
  let rename := Value.mapRef (Ref.renameTo originals heap.size)
  let copies := originals.map fun ref => (heap.fetch ref).mapValues rename
  ((rename value, originals.zipIdx.map fun (original, i) => (heap.size + i, original)),
    { heap with containers := heap.containers ++ copies.toArray })

/-- Copies a value. -/
def copy (value : Value) : HeapM Value := do
  return (← value.copyWithOrigins).1

end Value

end Conform
