import Conform.Proofs.Value.Entries
import Conform.Proofs.Value.Reach

/-!
# Values that are trees

A value is a tree when no container in it is reached by two paths.  Then what two parts of
a container lead to has nothing in common, and no part leads back.

Paths are taken through the contents of containers, so a step is described for contents
first: what it leads to, and what putting something there changes.

## Main definitions

* `Container.part?`, `Container.put`, `Container.Takes`: one step into contents.
* `Container.accessors`: all the steps that lead somewhere.
* `Heap.Path`, `Heap.Tree`: paths to containers, and values with no two to the same.

## Main results

* `Container.part?_put`, `Container.put_self`: what is put somewhere is found there and
  nowhere else, and what was there may be put back.
* `Heap.Tree.not_reachable_root`, `Heap.Tree.disjoint`: parts of a tree are apart.
-/

namespace Conform

/-! ## One step -/

namespace Container

/-- What one step into a container leads to. -/
def part? : Container → Accessor → Option Value
  | .array items, .index i => items[i]?
  | .object fields, .key name => fields.get? name
  | _, _ => none

/-- Puts a value where one step leads. -/
def put : Container → Accessor → Value → Container
  | .array items, .index i, value => .array (items.set i value)
  | .object fields, .key name, value => .object (fields.insert name value)
  | container, _, _ => container

theorem mapFields_insert (container : Container) (name : String) (value : Value) :
    container.mapFields (·.insert name value) = container.put (.key name) value := by
  cases container <;> rfl

theorem mapItems_set (container : Container) (i : Nat) (value : Value) :
    container.mapItems (·.set i value) = container.put (.index i) value := by
  cases container <;> rfl

/-- The steps that lead somewhere in a container, in order. -/
def accessors : Container → List Accessor
  | .array items => (List.range items.length).map .index
  | .object fields => fields.keys.map .key

/-- A container has a place for what a step leads to: an object for any key, an array for
the indices it has. -/
inductive Takes : Container → Accessor → Prop where
  | index {items : List Value} {i : Nat} : i < items.length → Takes (.array items) (.index i)
  | key {fields : OrderedMap Value} {name : String} : Takes (.object fields) (.key name)

variable {container : Container} {accessor : Accessor} {value : Value}

theorem mem_children_iff : value ∈ container.children ↔
    ∃ accessor, container.part? accessor = some value := by
  cases container with
  | array items =>
    constructor
    · intro hmem
      obtain ⟨i, hi⟩ := List.mem_iff_getElem?.1 hmem
      exact ⟨.index i, hi⟩
    · -- A key leads nowhere in an array.
      rintro ⟨_ | i, h⟩
      · cases h
      · exact List.mem_of_getElem? h
  | object fields =>
    constructor
    · intro hmem
      obtain ⟨entry, hentry, rfl⟩ := List.mem_map.1 hmem
      exact ⟨.key entry.1, OrderedMap.get?_of_mem hentry⟩
    · rintro ⟨name | _, h⟩
      · exact List.mem_map_of_mem (OrderedMap.mem_of_get? h)
      · cases h

/-- What an object holds under a name is one of the values given for it. -/
theorem mem_of_part?_ofList {pairs : List (String × Value)}
    (h : (Container.object (.ofList pairs)).part? accessor = some value) :
    ∃ name, accessor = .key name ∧ (name, value) ∈ pairs := by
  rcases accessor with name | i
  · exact ⟨name, rfl, Entries.mem_of_mem_collect (OrderedMap.mem_of_get? h)⟩
  · cases h

/-- **What is put somewhere is found there**, and what was elsewhere stays. -/
theorem part?_put (h : container.Takes accessor) (value : Value) (other : Accessor) :
    (container.put accessor value).part? other =
      if other = accessor then some value else container.part? other := by
  cases h with
  | index hi =>
    cases other with
    | key name => rw [if_neg nofun]; rfl
    | index j =>
      simp only [put, part?, List.getElem?_set, hi, if_true, Accessor.index.injEq, eq_comm]
  | key =>
    cases other with
    | index j => rw [if_neg nofun]; rfl
    | key name => simp only [put, part?, OrderedMap.get?_insert, Accessor.key.injEq, eq_comm]

/-- What is put back where it was found changes nothing. -/
theorem put_self (h : container.part? accessor = some value) :
    container.put accessor value = container := by
  cases container with
  | array items =>
    cases accessor with
    | key name => rfl
    | index i =>
      obtain ⟨hi, rfl⟩ := List.getElem?_eq_some_iff.1 (h : items[i]? = some value)
      exact congrArg Container.array (List.set_getElem_self hi)
  | object fields =>
    cases accessor with
    | index i => rfl
    | key name => exact congrArg Container.object (OrderedMap.insert_self h)

theorem Takes.put {other : Accessor} (h : container.Takes other) :
    (container.put accessor value).Takes other := by
  cases h with
  | index hi =>
    cases accessor with
    | key name => exact .index hi
    | index j => exact .index (by rwa [List.length_set])
  | key =>
    cases accessor with
    | key name => exact .key
    | index j => exact .key

theorem nodup_accessors (container : Container) : container.accessors.Nodup := by
  cases container with
  | array items => exact List.nodup_range.map fun _ _ => Accessor.index.inj
  | object fields => exact fields.nodup.map fun _ _ => Accessor.key.inj

theorem takes_of_mem_accessors (h : accessor ∈ container.accessors) : container.Takes accessor := by
  cases container with
  | array items =>
    obtain ⟨i, hi, rfl⟩ := List.mem_map.1 h
    exact .index (List.mem_range.1 hi)
  | object fields =>
    obtain ⟨name, -, rfl⟩ := List.mem_map.1 h
    exact .key

/-- Putting something where there was something adds no place. -/
theorem accessors_put (h : accessor ∈ container.accessors) (value : Value) :
    (container.put accessor value).accessors = container.accessors := by
  cases container with
  | array items =>
    cases accessor with
    | key name => rfl
    | index i => simp only [put, accessors, List.length_set]
  | object fields =>
    cases accessor with
    | index i => rfl
    | key name =>
      obtain ⟨_, hname, ⟨⟩⟩ := List.mem_map.1 h
      change ((fields.insert name value).keys.map _) = fields.keys.map _
      rw [OrderedMap.keys_insert, if_pos hname]

/-- Only a key that is put may be new. -/
theorem filter_keys_put {keep : String → Bool}
    (h : ∀ name, accessor = .key name → keep name = false) :
    (container.put accessor value).fields.keys.filter keep =
      container.fields.keys.filter keep := by
  cases container with
  | array items => cases accessor <;> rfl
  | object fields =>
    cases accessor with
    | index i => rfl
    | key name =>
      change (fields.insert name value).keys.filter keep = fields.keys.filter keep
      rw [OrderedMap.keys_insert]
      split
      · rfl
      · simp [h name rfl]

end Container

/-! ## Paths -/

namespace Heap

variable {heap : Heap} {value : Value} {ref : Ref} {accessor : Accessor}

/-- A value leads to a container of its own kind, with the given contents. -/
inductive Opens (heap : Heap) : Value → Ref → Container → Prop where
  | array {ref : Ref} {items : List Value} : heap.fetch ref = .array items →
      Opens heap (.array ref) ref (.array items)
  | object {ref : Ref} {fields : OrderedMap Value} : heap.fetch ref = .object fields →
      Opens heap (.object ref) ref (.object fields)

namespace Opens

variable {contents : Container}

theorem ref?_eq (h : heap.Opens value ref contents) : value.ref? = some ref := by
  cases h <;> rfl

theorem fetch_eq (h : heap.Opens value ref contents) : heap.fetch ref = contents := by
  cases h <;> assumption

theorem step?_eq (h : heap.Opens value ref contents) (accessor : Accessor) :
    heap.step? value accessor = contents.part? accessor := by
  cases h with
  | array hfetch =>
    cases accessor with
    | key name => rfl
    | index i =>
      change (heap.fetch ref).items[i]? = _
      rw [hfetch]
      rfl
  | object hfetch =>
    cases accessor with
    | index i => rfl
    | key name =>
      change (heap.fetch ref).fields.get? name = _
      rw [hfetch]
      rfl

/-- What is put into a container is put into the one that the value leads to. -/
theorem put (h : heap.Opens value ref contents) (hlt : ref < heap.size) (accessor : Accessor)
    (part : Value) : (heap.store ref (contents.put accessor part)).Opens value ref
      (contents.put accessor part) := by
  cases h with
  | array _ => cases accessor <;> exact .array (fetch_store_self heap _ hlt)
  | object _ => cases accessor <;> exact .object (fetch_store_self heap _ hlt)

theorem of_fetch_eq {heap' : Heap} (h : heap.Opens value ref contents)
    (hsame : heap'.fetch ref = heap.fetch ref) : heap'.Opens value ref contents := by
  cases h with
  | array hfetch => exact .array (hsame.trans hfetch)
  | object hfetch => exact .object (hsame.trans hfetch)

end Opens

/-- A path from a value to a container. -/
inductive Path (heap : Heap) : Value → List Accessor → Ref → Prop where
  | here {value : Value} {ref : Ref} : value.ref? = some ref → Path heap value [] ref
  | step {value part : Value} {parent ref : Ref} {accessor : Accessor} {rest : List Accessor} :
      value.ref? = some parent → (heap.fetch parent).part? accessor = some part →
      Path heap part rest ref → Path heap value (accessor :: rest) ref

/-- No container is reached by two paths. -/
def Tree (heap : Heap) (value : Value) : Prop :=
  ∀ ref p q, heap.Path value p ref → heap.Path value q ref → p = q

/-- A path goes on to what its container holds. -/
theorem Path.extend {path : List Accessor} {parent child : Ref}
    (h : heap.Path value path parent) (hchild : heap.Child parent child) :
    ∃ accessor, heap.Path value (path ++ [accessor]) child := by
  induction h with
  | here href =>
    obtain ⟨part, hpart, hsome⟩ := hchild
    obtain ⟨accessor, haccessor⟩ := Container.mem_children_iff.1 hpart
    exact ⟨accessor, .step href haccessor (.here hsome)⟩
  | step href haccessor _ ih =>
    obtain ⟨last, hlast⟩ := ih hchild
    exact ⟨last, .step href haccessor hlast⟩

theorem exists_path_of_reachable (h : heap.Reachable value ref) :
    ∃ path, heap.Path value path ref := by
  induction h with
  | root href => exact ⟨[], .here href⟩
  | child _ hchild ih =>
    obtain ⟨path, hpath⟩ := ih
    obtain ⟨accessor, hnext⟩ := hpath.extend hchild
    exact ⟨_, hnext⟩

theorem Path.reachable {path : List Accessor} (h : heap.Path value path ref) :
    heap.Reachable value ref := by
  induction h with
  | here href => exact .root href
  | step href hpart _ ih =>
    exact .of_child (.root href) (Container.mem_children_iff.2 ⟨_, hpart⟩) ih

/-- What a step leads to is found there in the container. -/
theorem part?_of_step? {part : Value} {parent : Ref}
    (hstep : heap.step? value accessor = some part) (hvalue : value.ref? = some parent) :
    (heap.fetch parent).part? accessor = some part := by
  obtain ⟨r, name, rfl, rfl, hget⟩ | ⟨r, i, rfl, rfl, hget⟩ := step?_cases hstep
  · obtain rfl := Option.some.inj hvalue
    unfold fields at hget
    cases hfetch : heap.fetch r with
    | array items => rw [hfetch] at hget; cases hget
    | object fields => rw [hfetch] at hget; exact hget
  · obtain rfl := Option.some.inj hvalue
    unfold items at hget
    cases hfetch : heap.fetch r with
    | array items => rw [hfetch] at hget; exact hget
    | object fields => rw [hfetch] at hget; cases hget

/-- A part of a tree is a tree. -/
theorem Tree.get (h : heap.Tree value) {root : Ref} (href : value.ref? = some root)
    (accessor : Accessor) : heap.Tree (heap.get value accessor) := by
  intro ref p q hp hq
  unfold Heap.get at hp hq
  cases hstep : heap.step? value accessor with
  | none =>
    rw [hstep] at hp
    exact absurd hp.reachable (not_reachable_of_ref?_none rfl ref)
  | some part =>
    rw [hstep] at hp hq
    have hpart := part?_of_step? hstep href
    exact (List.cons.inj (h ref (accessor :: p) (accessor :: q) (.step href hpart hp)
      (.step href hpart hq))).2

section Parts

variable {root : Ref} {contents : Container} (hopens : heap.Opens value root contents)
include hopens

/-- A path through a part begins with the step to the part. -/
theorem exists_path_of_part (h : heap.Reachable (heap.get value accessor) ref) :
    ∃ path, heap.Path value (accessor :: path) ref := by
  unfold get at h
  rw [hopens.step?_eq] at h
  cases hpart : contents.part? accessor with
  | none =>
    rw [hpart] at h
    exact absurd h (not_reachable_of_ref?_none rfl ref)
  | some part =>
    rw [hpart] at h
    obtain ⟨path, hpath⟩ := exists_path_of_reachable h
    exact ⟨path, .step hopens.ref?_eq (hopens.fetch_eq ▸ hpart) hpath⟩

/-- **No part of a tree leads back.** -/
theorem Tree.not_reachable_root (h : heap.Tree value) (accessor : Accessor) :
    ¬ heap.Reachable (heap.get value accessor) root := by
  intro hreach
  obtain ⟨path, hpath⟩ := exists_path_of_part hopens hreach
  cases h root [] (accessor :: path) (.here hopens.ref?_eq) hpath

/-- **What two parts of a tree lead to has nothing in common.** -/
theorem Tree.disjoint (h : heap.Tree value) {other : Accessor} (hne : accessor ≠ other)
    (hreach : heap.Reachable (heap.get value accessor) ref) :
    ¬ heap.Reachable (heap.get value other) ref := by
  intro hreach'
  obtain ⟨path, hpath⟩ := exists_path_of_part hopens hreach
  obtain ⟨path', hpath'⟩ := exists_path_of_part hopens hreach'
  exact hne (List.cons.inj (h ref _ _ hpath hpath')).1

/-- A container that holds no other leads to itself alone. -/
theorem Path.eq_nil (hflat : ∀ part ∈ contents.children, part.ref? = none)
    {path : List Accessor} (h : heap.Path value path ref) : path = [] ∧ ref = root := by
  cases h with
  | here href => exact ⟨rfl, Option.some.inj (href.symm.trans hopens.ref?_eq)⟩
  | step href hpart hrest =>
    obtain rfl := Option.some.inj (href.symm.trans hopens.ref?_eq)
    have hnone := hflat _ (Container.mem_children_iff.2 ⟨_, hopens.fetch_eq ▸ hpart⟩)
    cases hrest with
    | here hsome => cases hnone.symm.trans hsome
    | step hsome _ _ => cases hnone.symm.trans hsome

/-- A container that holds no other is a tree. -/
theorem tree_of_flat (hflat : ∀ part ∈ contents.children, part.ref? = none) : heap.Tree value :=
  fun _ _ _ hp hq => (hp.eq_nil hopens hflat).1.trans (hq.eq_nil hopens hflat).1.symm

theorem holds_of_flat (hflat : ∀ part ∈ contents.children, part.ref? = none)
    (hlt : root < heap.size) : heap.Holds value := by
  intro ref hreach
  obtain ⟨path, hpath⟩ := exists_path_of_reachable hreach
  rwa [(hpath.eq_nil hopens hflat).2]

end Parts

end Heap

end Conform
