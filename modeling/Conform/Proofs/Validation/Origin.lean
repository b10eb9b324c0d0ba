import Conform.Validation.Context
import Conform.Proofs.Value.Copy

/-!
# Origins through trials

A trial knows the copies on which it works, and for each the container that its original
stands for.  So the origin of a copy is the origin of its original, however many trials
lie one inside the other.

## Main results

* `Context.originOf_fork_of_copied`: the origin of a copy.
* `Context.originOf_fork_of_lt`: any other container has the origin it had.
-/

namespace Conform

/-- A copy is listed with its original, and with no other. -/
theorem Value.find?_copyWithOrigins (value : Value) (heap : Heap) {original copy : Ref}
    (h : Ref.Copied (heap.reach value) heap.size original copy) :
    (value.copyWithOrigins heap).1.2.find? (fun origin => origin.1 == copy) =
      some (copy, original) := by
  -- The search finds a pair with this copy, and a copy is the copy of one container only.
  have hsome : ((value.copyWithOrigins heap).1.2.find? fun origin => origin.1 == copy).isSome := by
    rw [List.find?_isSome]
    exact ⟨(copy, original), (mem_copyWithOrigins value heap).2 h, by simp⟩
  obtain ⟨⟨copy', original'⟩, hfind⟩ := Option.isSome_iff_exists.1 hsome
  have hcopy : copy' = copy := by simpa using List.find?_some hfind
  subst hcopy
  have hcopied := (mem_copyWithOrigins value heap).1 (List.mem_of_find?_eq_some hfind)
  rw [hfind, (Ref.Copied.biUnique (heap.nodup_reach value)).1 hcopied h]

namespace Context

variable (context : Context)

theorem originOf_of_not_mem {ref : Ref} (h : ∀ origin ∈ context.origins, origin.1 ≠ ref) :
    context.originOf ref = ref := by
  have hnone : (context.origins.find? fun origin => origin.1 == ref) = none := by
    rw [List.find?_eq_none]
    intro origin horigin
    simpa using h origin horigin
  simp only [originOf, hnone]

theorem origins_fork (copies : List (Ref × Ref)) :
    (context.fork copies).origins = context.origins ++
      copies.map fun origin => (origin.1, context.originOf origin.2) := rfl

variable {context} {value : Value} {heap : Heap}

/-- **The origin of a copy** is the origin of its original. -/
theorem originOf_fork_of_copied (hfresh : ∀ origin ∈ context.origins, origin.1 < heap.size)
    {original copy : Ref} (h : Ref.Copied (heap.reach value) heap.size original copy) :
    (context.fork (value.copyWithOrigins heap).1.2).originOf copy = context.originOf original := by
  -- The copies that were known before are older, so the search goes on to the new ones.
  have hnone : (context.origins.find? fun origin => origin.1 == copy) = none := by
    rw [List.find?_eq_none]
    intro origin horigin heq
    have hlt := hfresh origin horigin
    rw [show origin.1 = copy by simpa using heq] at hlt
    exact Nat.not_le.2 hlt h.le
  have hfind := value.find?_copyWithOrigins heap h
  simp only [originOf, origins_fork, List.find?_append, hnone, Option.none_or, List.find?_map]
  simp only [Function.comp_def, hfind, Option.map_some]

/-- Any other container has the origin it had. -/
theorem originOf_fork_of_lt {ref : Ref} (hlt : ref < heap.size) :
    (context.fork (value.copyWithOrigins heap).1.2).originOf ref = context.originOf ref := by
  have hnone : ((value.copyWithOrigins heap).1.2.find? fun origin => origin.1 == ref) = none := by
    rw [List.find?_eq_none]
    rintro ⟨copy, original⟩ horigin heq
    have hcopied := (Value.mem_copyWithOrigins value heap).1 horigin
    rw [show copy = ref by simpa using heq] at hcopied
    exact Nat.not_le.2 hlt hcopied.le
  simp only [originOf, origins_fork, List.find?_append, List.find?_map]
  simp only [Function.comp_def, hnone, Option.map_none, Option.or_none]

/-- The copies that a trial knows are in the heap. -/
theorem lt_of_mem_origins_fork (hfresh : ∀ origin ∈ context.origins, origin.1 < heap.size)
    {origin : Ref × Ref} (h : origin ∈ (context.fork (value.copyWithOrigins heap).1.2).origins) :
    origin.1 < (value.copyWithOrigins heap).2.size := by
  rw [Value.size_copyWithOrigins]
  rw [origins_fork] at h
  rcases List.mem_append.1 h with hold | hnew
  · exact Nat.lt_add_right _ (hfresh origin hold)
  · obtain ⟨⟨copy, original⟩, hmem, rfl⟩ := List.mem_map.1 hnew
    exact ((Value.mem_copyWithOrigins value heap).1 hmem).lt

end Context

end Conform
