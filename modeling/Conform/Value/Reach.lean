import Conform.Value.Heap

/-!
# The containers of a value

The containers that can be reached from a value, each listed once, in the order
in which a walk that goes deep first meets them.  On its way down the walk enters
a new container at every step, so its depth is bounded by the size of the heap.

## Main definitions

* `Heap.Child`, `Heap.Reachable`: which containers a value leads to.
* `Heap.walk`: the containers of a value after those already seen.
* `Heap.reach`: the containers of a value, first met first.
-/

namespace Conform.Heap

/-- The values held by the container behind a reference. -/
def children (heap : Heap) (ref : Ref) : List Value := (heap.fetch ref).children

/-- One container holds another. -/
def Child (heap : Heap) (parent child : Ref) : Prop :=
  ∃ value ∈ heap.children parent, value.ref? = some child

/-- A container is the value itself or held by one that can be reached. -/
inductive Reachable (heap : Heap) (value : Value) : Ref → Prop where
  | root {ref : Ref} : value.ref? = some ref → Reachable heap value ref
  | child {parent ref : Ref} :
      Reachable heap value parent → heap.Child parent ref → Reachable heap value ref

/-- Adds the containers of a value to those already seen; the last seen stands
first.  The depth bounds how far the walk goes down. -/
def walk (heap : Heap) : Nat → List Ref → Value → List Ref
  | 0, seen, _ => seen
  | depth + 1, seen, value =>
    match value.ref? with
    | none => seen
    | some ref =>
      if ref ∈ seen then seen
      else (heap.children ref).foldl (walk heap depth) (ref :: seen)

/-- The containers that a value leads to, first met first. -/
def reach (heap : Heap) (value : Value) : List Ref :=
  (heap.walk (heap.size + 1) [] value).reverse

end Conform.Heap
