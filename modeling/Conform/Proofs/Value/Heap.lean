import Conform.Value.Heap

/-!
# Reading what was written

A heap is read by `fetch` alone, so what an operation does to a heap is said by what
`fetch` and `size` give afterwards.  Every change of a container in place is a `store`
of new contents, and every new container takes the next place.

## Main definitions

* `Container.mapItems`, `Container.mapFields`: changes of what a container holds.

## Main results

* `Heap.fetch_store`, `Heap.fetch_allocate`: what is read after a change.
* `Heap.setItem_eq_store`, `Heap.insertField_eq_store`: changes in place are stores.
* `Heap.replaceField_apply`, `Heap.takeField_apply`: what is handed out was there before.
* `Heap.setItem_self`, `Heap.insertField_self`: putting back what was there changes nothing.
-/

namespace Conform

namespace Container

/-- Changes the items of an array. -/
def mapItems (f : List Value → List Value) : Container → Container
  | .array items => .array (f items)
  | .object fields => .object fields

/-- Changes the fields of an object. -/
def mapFields (f : OrderedMap Value → OrderedMap Value) : Container → Container
  | .array items => .array items
  | .object fields => .object (f fields)

end Container

/-- The field of an object; a missing one is null. -/
def Heap.fieldOf (heap : Heap) (ref : Ref) (name : String) : Value :=
  ((heap.fields ref).get? name).getD .null

namespace Heap

variable (heap : Heap)

/-! ## Stores -/

@[simp] theorem size_store (ref : Ref) (container : Container) :
    (heap.store ref container).size = heap.size := by
  simp [store, size]

theorem fetch_of_size_le {ref : Ref} (h : heap.size ≤ ref) : heap.fetch ref = .array [] := by
  simp only [size] at h
  simp [fetch, Array.getD, Nat.not_lt.2 h]

theorem fetch_store_self {ref : Ref} (container : Container) (h : ref < heap.size) :
    (heap.store ref container).fetch ref = container := by
  simp only [size] at h
  simp [fetch, store, Array.getD, h]

theorem fetch_store_of_ne {ref other : Ref} (container : Container) (h : ref ≠ other) :
    (heap.store ref container).fetch other = heap.fetch other := by
  simp [fetch, store, h]

/-- A store changes one container, and none where there is no such container. -/
theorem fetch_store (ref : Ref) (container : Container) (other : Ref) :
    (heap.store ref container).fetch other =
      if ref = other ∧ ref < heap.size then container else heap.fetch other := by
  by_cases h : ref = other
  · subst h
    by_cases hlt : ref < heap.size
    · simp [fetch_store_self heap container hlt, hlt]
    · have hle : heap.size ≤ ref := Nat.not_lt.1 hlt
      rw [if_neg (fun hand => hlt hand.2), fetch_of_size_le heap hle,
        fetch_of_size_le _ (by simpa using hle)]
  · rw [fetch_store_of_ne heap container h, if_neg fun hand => h hand.1]

/-- Contents put back where they were change nothing. -/
theorem store_fetch (ref : Ref) : heap.store ref (heap.fetch ref) = heap := by
  have hcontainers : heap.containers.setIfInBounds ref (heap.fetch ref) = heap.containers := by
    apply Array.ext
    · simp
    · intro i hi _
      rw [Array.getElem_setIfInBounds (by simpa using hi)]
      split
      · next heq =>
        subst heq
        simp only [Array.size_setIfInBounds] at hi
        simp [fetch, Array.getD, hi]
      · rfl
  rw [store, hcontainers]

theorem modifyItems_eq_store (ref : Ref) (f : List Value → List Value) :
    heap.modifyItems ref f = heap.store ref ((heap.fetch ref).mapItems f) := by
  simp only [modifyItems, store]
  congr 1
  apply Array.ext
  · simp
  · intro i hi₁ hi₂
    rw [Array.getElem_modify, Array.getElem_setIfInBounds (by simpa using hi₂)]
    split
    · rename_i h
      subst h
      simp only [Array.size_modify] at hi₁
      simp only [fetch, Array.getD, hi₁, dif_pos]
      cases h : heap.containers[ref] <;> simp [Container.mapItems, h]
    · rfl

theorem modifyFields_eq_store (ref : Ref) (f : OrderedMap Value → OrderedMap Value) :
    heap.modifyFields ref f = heap.store ref ((heap.fetch ref).mapFields f) := by
  simp only [modifyFields, store]
  congr 1
  apply Array.ext
  · simp
  · intro i hi₁ hi₂
    rw [Array.getElem_modify, Array.getElem_setIfInBounds (by simpa using hi₂)]
    split
    · rename_i h
      subst h
      simp only [Array.size_modify] at hi₁
      simp only [fetch, Array.getD, hi₁, dif_pos]
      cases h : heap.containers[ref] <;> simp [Container.mapFields, h]
    · rfl

theorem setItem_eq_store (ref : Ref) (i : Nat) (value : Value) :
    heap.setItem ref i value = heap.store ref ((heap.fetch ref).mapItems (·.set i value)) :=
  modifyItems_eq_store heap ref _

theorem insertField_eq_store (ref : Ref) (name : String) (value : Value) :
    heap.insertField ref name value =
      heap.store ref ((heap.fetch ref).mapFields (·.insert name value)) :=
  modifyFields_eq_store heap ref _

/-- Fields may be changed before they are put back. -/
theorem modifyFields_fields (ref : Ref) (f : OrderedMap Value → OrderedMap Value) :
    (heap.modifyFields ref fun _ => f (heap.fields ref)) = heap.modifyFields ref f := by
  rw [modifyFields_eq_store, modifyFields_eq_store]
  unfold fields
  cases heap.fetch ref <;> rfl

theorem lt_size_of_fetch_eq_object {heap : Heap} {ref : Ref} {fields : OrderedMap Value}
    (h : heap.fetch ref = .object fields) : ref < heap.size := by
  refine Nat.lt_of_not_le fun hle => ?_
  rw [fetch_of_size_le heap hle] at h
  cases h

/-- An object stays one when fields are changed. -/
theorem fetch_modifyFields {heap : Heap} {ref : Ref} {fields : OrderedMap Value}
    (h : heap.fetch ref = .object fields) (target : Ref)
    (f : OrderedMap Value → OrderedMap Value) :
    (heap.modifyFields target f).fetch ref =
      .object (if target = ref then f fields else fields) := by
  rw [modifyFields_eq_store, fetch_store]
  by_cases htarget : target = ref
  · obtain rfl := htarget
    rw [if_pos ⟨rfl, lt_size_of_fetch_eq_object h⟩, if_pos rfl, h, Container.mapFields]
  · rw [if_neg (fun hand => htarget hand.1), if_neg htarget, h]

theorem replaceField_apply (ref : Ref) (name : String) (value : Value) :
    replaceField ref name value heap =
      ((heap.fields ref).get? name, heap.insertField ref name value) := by
  rw [replaceField, OrderedMap.getThenInsert?_eq]
  exact congrArg (Prod.mk _) (modifyFields_fields heap ref (·.insert name value))

theorem takeField_apply (ref : Ref) (name : String) :
    takeField ref name heap = ((heap.fields ref).get? name, heap.eraseField ref name) := by
  rw [takeField, OrderedMap.getThenErase?_eq]
  exact congrArg (Prod.mk _) (modifyFields_fields heap ref (·.erase name))

/-- An item put back in its place. -/
theorem setItem_self {ref : Ref} {i : Nat} {value : Value}
    (h : (heap.items ref)[i]? = some value) : heap.setItem ref i value = heap := by
  have hsame : (heap.fetch ref).mapItems (·.set i value) = heap.fetch ref := by
    unfold items at h
    cases hfetch : heap.fetch ref with
    | array items =>
      rw [hfetch] at h
      obtain ⟨hi, rfl⟩ := List.getElem?_eq_some_iff.1 h
      exact congrArg Container.array (List.set_getElem_self hi)
    | object fields => rfl
  rw [setItem_eq_store, hsame, store_fetch]

/-- Where there is no such item nothing is replaced. -/
theorem setItem_of_length_le {ref : Ref} {i : Nat} {value : Value}
    (h : (heap.items ref).length ≤ i) : heap.setItem ref i value = heap := by
  have hsame : (heap.fetch ref).mapItems (·.set i value) = heap.fetch ref := by
    unfold items at h
    cases hfetch : heap.fetch ref with
    | array items =>
      rw [hfetch] at h
      exact congrArg Container.array (List.set_eq_of_length_le h)
    | object fields => rfl
  rw [setItem_eq_store, hsame, store_fetch]

/-- A field put back in its place. -/
theorem insertField_self {ref : Ref} {name : String} {value : Value}
    (h : (heap.fields ref).get? name = some value) : heap.insertField ref name value = heap := by
  have hsame : (heap.fetch ref).mapFields (·.insert name value) = heap.fetch ref := by
    unfold fields at h
    cases hfetch : heap.fetch ref with
    | array items => rfl
    | object fields =>
      rw [hfetch] at h
      exact congrArg Container.object (OrderedMap.insert_self h)
  rw [insertField_eq_store, hsame, store_fetch]

/-! ## New containers -/

theorem allocate_apply (container : Container) :
    allocate container heap =
      (heap.size, { heap with containers := heap.containers.push container }) := rfl

@[simp] theorem size_allocate (container : Container) :
    (allocate container heap).2.size = heap.size + 1 := by
  simp [allocate, size]

theorem fetch_append (containers : Array Container) (ref : Ref) :
    Heap.fetch ⟨heap.containers ++ containers, heap.functions⟩ ref =
      if ref < heap.size then heap.fetch ref
      else containers.getD (ref - heap.size) (.array []) := by
  simp only [fetch, size, Array.getD_eq_getD_getElem?, Array.getElem?_append]
  split <;> rfl

/-- A new container takes the next place. -/
theorem fetch_allocate (container : Container) (ref : Ref) :
    (allocate container heap).2.fetch ref =
      if ref = heap.size then container else heap.fetch ref := by
  rw [allocate_apply, Array.push_eq_append]
  rw [show Heap.fetch _ ref = _ from fetch_append heap #[container] ref]
  by_cases h : ref < heap.size
  · rw [if_pos h, if_neg (Nat.ne_of_lt h)]
  · rw [if_neg h]
    have hle : heap.size ≤ ref := Nat.not_lt.1 h
    split
    · rename_i heq
      simp [heq]
    · rename_i hne
      have : 1 ≤ ref - heap.size := Nat.sub_pos_of_lt (Nat.lt_of_le_of_ne hle (Ne.symm hne))
      rw [fetch_of_size_le heap hle]
      simp [Array.getD, Nat.not_lt.2 this]

end Heap

end Conform
