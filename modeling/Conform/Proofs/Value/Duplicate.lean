import Conform.Proofs.Value.Memoised

/-!
# Copies have storage of their own

A copy comes with pairs that match its containers with those of the original.  Each container
of the original has one partner, and the partners are the containers that are new.  What
stands in a container stands in its partner, with every container replaced by its partner,
and so nothing can be reached from the copy that was there before.

It does not matter whether the containers are copied all at once, when it is known which there
are, or as they are met, when their partners are still being filled.

## Main definitions

* `Value.IsCopy`: a copy and the pairs that come with it.

## Main results

* `Value.isCopy_copyWithOrigins`: this is what copying gives.
-/

namespace Conform

namespace Value

/-- A copy, each of its containers with its original, and the heap that holds the copy. -/
structure IsCopy (heap : Heap) (value : Value) (heap' : Heap) (copy : Value)
    (pairs : List (Ref × Ref)) : Prop where
  /-- Functions are not copied. -/
  functions_eq : heap'.functions = heap.functions
  /-- The containers there were are as they were. -/
  fetch_eq : ∀ ref < heap.size, heap'.fetch ref = heap.fetch ref
  /-- Every container of the original has one partner … -/
  nodup_originals : (pairs.map Prod.snd).Nodup
  mem_originals : ∀ ref, ref ∈ pairs.map Prod.snd ↔ heap.Reachable value ref
  /-- … and every new container is the partner of one. -/
  nodup_copies : (pairs.map Prod.fst).Nodup
  mem_copies : ∀ ref, ref ∈ pairs.map Prod.fst ↔ heap.size ≤ ref ∧ ref < heap'.size
  /-- The copy is the same scalar or leads to the partner. -/
  alike : Value.Alike (fun original copy => (copy, original) ∈ pairs) value copy
  /-- So is all that stands in the containers, in the same order and under the same keys. -/
  agree : ∀ copy original, (copy, original) ∈ pairs →
    Container.Alike (fun original copy => (copy, original) ∈ pairs) (heap.fetch original)
      (heap'.fetch copy)
  /-- Nothing older can be reached from the copy. -/
  fresh : ∀ ref, heap'.Reachable copy ref → heap.size ≤ ref

variable (value : Value) (heap : Heap)

theorem originals_copyWithOrigins :
    (value.copyWithOrigins heap).1.2.map Prod.snd = heap.reach value := by
  simp only [copyWithOrigins, List.map_map]
  exact (List.map_congr_left fun _ _ => rfl).trans (List.zipIdx_map_fst 0 _)

theorem copies_copyWithOrigins :
    (value.copyWithOrigins heap).1.2.map Prod.fst =
      List.range' heap.size (heap.reach value).length := by
  calc (value.copyWithOrigins heap).1.2.map Prod.fst
      = ((heap.reach value).zipIdx.map Prod.snd).map (heap.size + ·) := by
        simp only [copyWithOrigins, List.map_map]
        rfl
    _ = List.range' heap.size (heap.reach value).length := by
        rw [List.zipIdx_map_snd, List.map_add_range', Nat.add_zero]

theorem isCopy_atOnce :
    IsCopy heap value (value.copyWithOrigins heap).2 (value.copyWithOrigins heap).1.1
      (value.copyWithOrigins heap).1.2 where
  functions_eq := rfl
  fetch_eq _ h := fetch_copyWithOrigins_of_lt value heap h
  nodup_originals := originals_copyWithOrigins value heap ▸ Heap.nodup_reach heap value
  mem_originals _ := originals_copyWithOrigins value heap ▸ Heap.mem_reach_iff
  nodup_copies := copies_copyWithOrigins value heap ▸ List.nodup_range'
  mem_copies ref := by
    rw [copies_copyWithOrigins, List.mem_range'_1, size_copyWithOrigins]
  alike := (alike_copyWithOrigins value heap).mono fun _ _ => (mem_copyWithOrigins value heap).2
  agree copy original h :=
    (agree_copyWithOrigins value heap ((mem_copyWithOrigins value heap).1 h)).mono
      fun _ _ => (mem_copyWithOrigins value heap).2
  fresh ref h := by
    induction h with
    | root href =>
      obtain ⟨original, hcopied⟩ := ref?_copyWithOrigins value heap href
      exact hcopied.le
    | child _ hchild ih =>
      rcases child_copyWithOrigins value heap hchild with ⟨hlt, -⟩ | ⟨-, original, hcopied⟩
      · exact absurd hlt (Nat.not_lt.2 ih)
      · exact hcopied.le

/-- **A copy has storage of its own and the shape of the original**, and it is the copy that
comes of copying depth first. -/
theorem isCopy_copyWithOrigins :
    IsCopy heap value (value.copyWithOrigins heap).2 (value.copyWithOrigins heap).1.1
        (value.copyWithOrigins heap).1.2 ∧
      (heap.Holds value → ∀ depth, heap.size < depth →
        let (copy, copying) := Copying.copyDown depth ⟨heap, []⟩ value
        value.copyWithOrigins heap = ((copy, copying.met.map Prod.swap), copying.heap)) :=
  ⟨isCopy_atOnce value heap, fun hholds _ hdepth => copyWithOrigins_eq_copyDown hholds hdepth⟩

/-- An array that holds an object twice, and itself. -/
theorem isCopy_copyWithOrigins_shared :
    let heap : Heap := { containers := #[
      .array [.object 1, .object 1, .array 0],
      .object (.ofList [("on", .bool true)])] }
    let copied := (Value.array 0).copyWithOrigins heap
    copied.1 = (.array 2, [(2, 0), (3, 1)]) ∧
      copied.2.items 2 = [.object 3, .object 3, .array 2] ∧
      (∀ ref, copied.2.Reachable (.array 2) ref → 2 ≤ ref) ∧
      copied = (let (copy, copying) := Copying.copyDown 3 ⟨heap, []⟩ (.array 0)
        ((copy, copying.met.map Prod.swap), copying.heap)) := by
  intro heap copied
  have hholds : heap.Holds (.array 0) := by
    intro ref href
    rw [← Heap.mem_reach_iff] at href
    revert ref
    decide
  obtain ⟨hcopy, hdown⟩ := isCopy_copyWithOrigins (.array 0) heap
  exact ⟨by decide, by decide, hcopy.fresh, hdown hholds 3 (by decide)⟩

end Value

end Conform
