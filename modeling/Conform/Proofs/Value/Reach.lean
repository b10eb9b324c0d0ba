import Mathlib.Data.Finset.Card
import Mathlib.Data.Finset.Range
import Conform.Value.Reach
import Conform.Proofs.Value.Heap

/-!
# The walk meets every container

The walk is bounded in depth, and what it returns must not depend on the bound.  So it is
compared with a relation that has none: `Walked` says what a list of values adds to the
containers already seen.  The bound is enough because each step down meets one of the
containers of the heap that have not been seen, or a reference that leads nowhere and has
no children.

## Main definitions

* `Heap.Holds`: a value that leads to nothing outside the heap.
* `Heap.follow?`, `Heap.passed`: what a path leads to, and the containers on the way.
* `Heap.Acyclic`: a value that does not contain itself.
* `Heap.Walked`: the walk through a list of values, without a bound.

## Main results

* `Heap.walked_reach`: the bounded walk is the walk.
* `Heap.mem_reach_iff`: exactly the reachable containers are listed.
* `Heap.nodup_reach`: each of them once.
-/

namespace Conform.Heap

variable {heap : Heap}

/-! ## Reachable containers -/

/-- All containers that a value leads to are in the heap. -/
def Holds (heap : Heap) (value : Value) : Prop := ∀ ref, heap.Reachable value ref → ref < heap.size

/-- What can be reached from a part can be reached from the whole. -/
theorem Reachable.of_child {value part : Value} {parent ref : Ref}
    (hparent : heap.Reachable value parent) (hpart : part ∈ heap.children parent)
    (h : heap.Reachable part ref) : heap.Reachable value ref := by
  induction h with
  | root hroot => exact .child hparent ⟨part, hpart, hroot⟩
  | child _ hchild ih => exact .child ih hchild

/-- Where the containers that a value leads to are as they were, it leads to no others. -/
theorem Reachable.of_fetch_eq {heap' : Heap} {value : Value}
    (hsame : ∀ ref, heap.Reachable value ref → heap'.fetch ref = heap.fetch ref) {ref : Ref}
    (h : heap'.Reachable value ref) : heap.Reachable value ref := by
  induction h with
  | root hroot => exact .root hroot
  | child _ hchild ih =>
    obtain ⟨part, hpart, href⟩ := hchild
    rw [children, hsame _ ih] at hpart
    exact .child ih ⟨part, hpart, href⟩

/-- Nothing can be reached from a scalar. -/
theorem not_reachable_of_ref?_none {value : Value} (h : value.ref? = none) (ref : Ref) :
    ¬ heap.Reachable value ref := by
  intro hreach
  induction hreach with
  | root hroot => rw [h] at hroot; cases hroot
  | child _ _ ih => exact ih

theorem children_of_size_le {ref : Ref} (h : heap.size ≤ ref) : heap.children ref = [] := by
  simp [children, fetch_of_size_le heap h, Container.children]

/-- What holds something is in the heap. -/
theorem lt_size_of_mem_children {ref : Ref} {part : Value} (h : part ∈ heap.children ref) :
    ref < heap.size := by
  refine Nat.lt_of_not_le fun hle => ?_
  rw [children_of_size_le hle] at h
  cases h

theorem mem_children_of_mem_items {ref : Ref} {part : Value} (h : part ∈ heap.items ref) :
    part ∈ heap.children ref := by
  unfold items at h
  unfold children
  cases hfetch : heap.fetch ref with
  | array items => rwa [hfetch] at h
  | object fields => rw [hfetch] at h; cases h

theorem mem_children_of_get? {ref : Ref} {name : String} {part : Value}
    (h : (heap.fields ref).get? name = some part) : part ∈ heap.children ref := by
  unfold fields at h
  unfold children
  cases hfetch : heap.fetch ref with
  | array items => rw [hfetch] at h; cases h
  | object fields =>
    rw [hfetch] at h
    exact List.mem_map_of_mem (OrderedMap.mem_of_get? h)

/-- One step leads to a field of an object or to an item of an array. -/
theorem step?_cases {value part : Value} {accessor : Accessor}
    (h : heap.step? value accessor = some part) :
    (∃ ref name, value = .object ref ∧ accessor = .key name ∧
      (heap.fields ref).get? name = some part) ∨
      ∃ ref i, value = .array ref ∧ accessor = .index i ∧ (heap.items ref)[i]? = some part := by
  unfold step? at h
  split at h
  · next ref name => exact .inl ⟨ref, name, rfl, rfl, h⟩
  · next ref i => exact .inr ⟨ref, i, rfl, rfl, h⟩
  · cases h

theorem mem_children_of_step? {value part : Value} {accessor : Accessor}
    (h : heap.step? value accessor = some part) :
    ∃ ref, value.ref? = some ref ∧ part ∈ heap.children ref := by
  obtain ⟨ref, name, rfl, -, hget⟩ | ⟨ref, i, rfl, -, hget⟩ := step?_cases h
  · exact ⟨ref, rfl, mem_children_of_get? hget⟩
  · exact ⟨ref, rfl, mem_children_of_mem_items (List.mem_of_getElem? hget)⟩

/-- A step leads from a container of the heap to what it holds. -/
theorem exists_of_step? {value part : Value} {accessor : Accessor}
    (h : heap.step? value accessor = some part) :
    ∃ ref, value.ref? = some ref ∧ ref < heap.size ∧ part ∈ heap.children ref := by
  obtain ⟨ref, href, hpart⟩ := mem_children_of_step? h
  exact ⟨ref, href, lt_size_of_mem_children hpart, hpart⟩

theorem Reachable.of_step? {value part : Value} {accessor : Accessor} {ref : Ref}
    (hstep : heap.step? value accessor = some part) (h : heap.Reachable part ref) :
    heap.Reachable value ref := by
  obtain ⟨parent, hroot, hpart⟩ := mem_children_of_step? hstep
  exact .of_child (.root hroot) hpart h

theorem Holds.part {value part : Value} {accessor : Accessor} (h : heap.Holds value)
    (hstep : heap.step? value accessor = some part) : heap.Holds part :=
  fun ref hreach => h ref (hreach.of_step? hstep)

/-- What a part leads to, the whole leads to; nothing leads further. -/
theorem Reachable.of_get {value : Value} {accessor : Accessor} {ref : Ref}
    (h : heap.Reachable (heap.get value accessor) ref) : heap.Reachable value ref := by
  unfold Heap.get at h
  cases hstep : heap.step? value accessor with
  | none =>
    rw [hstep] at h
    exact absurd h (not_reachable_of_ref?_none rfl ref)
  | some part =>
    rw [hstep] at h
    exact h.of_step? hstep

theorem Holds.get {value : Value} (h : heap.Holds value) (accessor : Accessor) :
    heap.Holds (heap.get value accessor) :=
  fun ref hreach => h ref hreach.of_get

/-! ## Following paths -/

/-- What a path leads to, if there is a part for each of its steps. -/
def follow? (heap : Heap) : Value → List Accessor → Option Value
  | value, [] => some value
  | value, accessor :: rest => (heap.step? value accessor).bind fun part => heap.follow? part rest

/-- The containers that a path passes through, the outermost first.  The one that it leads to
is not passed yet. -/
def passed (heap : Heap) : Value → List Accessor → List Ref
  | _, [] => []
  | value, accessor :: rest =>
    value.ref?.toList ++
      match heap.step? value accessor with
      | some part => heap.passed part rest
      | none => []

@[simp] theorem follow?_nil (value : Value) : heap.follow? value [] = some value := rfl

theorem follow?_cons (value : Value) (accessor : Accessor) (rest : List Accessor) :
    heap.follow? value (accessor :: rest) =
      (heap.step? value accessor).bind fun part => heap.follow? part rest := rfl

/-! ## Values that do not contain themselves -/

/-- No container that a value leads to is reached from one of its own parts. -/
def Acyclic (heap : Heap) (value : Value) : Prop :=
  ∀ ref, heap.Reachable value ref → ∀ part ∈ heap.children ref, ¬ heap.Reachable part ref

/-- A part does not contain itself, nor the container that it is a part of. -/
theorem Acyclic.part {value part : Value} {accessor : Accessor} (h : heap.Acyclic value)
    (hstep : heap.step? value accessor = some part) :
    heap.Acyclic part ∧ ∀ ref, value.ref? = some ref → ¬ heap.Reachable part ref := by
  refine ⟨fun ref hreach => h ref (hreach.of_step? hstep), fun ref href => ?_⟩
  obtain ⟨ref', href', hpart⟩ := mem_children_of_step? hstep
  obtain rfl := Option.some.inj (href'.symm.trans href)
  exact h ref' (.root href') part hpart

section Older

variable (h : ∀ parent child, heap.Child parent child → child < parent)
include h

/-- Where containers hold older ones alone, a value leads to nothing newer than itself. -/
theorem Reachable.le {value : Value} {root ref : Ref} (hroot : value.ref? = some root)
    (hreach : heap.Reachable value ref) : ref ≤ root := by
  induction hreach with
  | root hroot' => exact Nat.le_of_eq (Option.some.inj (hroot'.symm.trans hroot))
  | child _ hchild ih => exact Nat.le_trans (Nat.le_of_lt (h _ _ hchild)) ih

/-- Where containers hold older ones alone, no value contains itself. -/
theorem acyclic_of_child_lt (value : Value) : heap.Acyclic value := by
  intro ref _ part hpart hback
  cases href : part.ref? with
  | none => exact not_reachable_of_ref?_none href ref hback
  | some root => exact Nat.not_le.2 (h ref root ⟨part, hpart, href⟩) (hback.le h href)

end Older

/-! ## The walk without a bound -/

/-- Going through the values in turn adds the containers that were not seen before, each
before its parts; the last seen stands first. -/
inductive Walked (heap : Heap) : List Ref → List Value → List Ref → Prop where
  | nil {seen : List Ref} : Walked heap seen [] seen
  | scalar {seen out : List Ref} {value : Value} {values : List Value} :
      value.ref? = none → Walked heap seen values out → Walked heap seen (value :: values) out
  | known {seen out : List Ref} {value : Value} {values : List Value} {ref : Ref} :
      value.ref? = some ref → ref ∈ seen → Walked heap seen values out →
      Walked heap seen (value :: values) out
  | new {seen below out : List Ref} {value : Value} {values : List Value} {ref : Ref} :
      value.ref? = some ref → ref ∉ seen → Walked heap (ref :: seen) (heap.children ref) below →
      Walked heap below values out → Walked heap seen (value :: values) out

namespace Walked

variable {seen out : List Ref} {values : List Value}

/-- What has been seen stays seen. -/
theorem subset (h : Walked heap seen values out) : seen ⊆ out := by
  induction h with
  | nil => exact List.Subset.refl _
  | scalar _ _ ih => exact ih
  | known _ _ _ ih => exact ih
  | new _ _ _ _ ih₁ ih₂ =>
    exact List.Subset.trans (List.subset_cons_self _ _) (List.Subset.trans ih₁ ih₂)

/-- No container is listed twice. -/
theorem nodup (h : Walked heap seen values out) (hseen : seen.Nodup) : out.Nodup := by
  induction h with
  | nil => exact hseen
  | scalar _ _ ih => exact ih hseen
  | known _ _ _ ih => exact ih hseen
  | new _ hnew _ _ ih₁ ih₂ => exact ih₂ (ih₁ (List.nodup_cons.2 ⟨hnew, hseen⟩))

/-- Only containers that can be reached are added. -/
theorem sound (h : Walked heap seen values out) {ref : Ref} (hmem : ref ∈ out) :
    ref ∈ seen ∨ ∃ value ∈ values, heap.Reachable value ref := by
  induction h with
  | nil => exact .inl hmem
  | scalar _ _ ih =>
    rcases ih hmem with hseen | ⟨value, hvalue, hreach⟩
    · exact .inl hseen
    · exact .inr ⟨value, List.mem_cons_of_mem _ hvalue, hreach⟩
  | known _ _ _ ih =>
    rcases ih hmem with hseen | ⟨value, hvalue, hreach⟩
    · exact .inl hseen
    · exact .inr ⟨value, List.mem_cons_of_mem _ hvalue, hreach⟩
  | new hroot _ _ _ ih₁ ih₂ =>
    rcases ih₂ hmem with hbelow | ⟨value, hvalue, hreach⟩
    · rcases ih₁ hbelow with hseen | ⟨part, hpart, hreach⟩
      · rcases List.mem_cons.1 hseen with rfl | hseen
        · exact .inr ⟨_, List.mem_cons_self .., .root hroot⟩
        · exact .inl hseen
      · exact .inr ⟨_, List.mem_cons_self .., .of_child (.root hroot) hpart hreach⟩
    · exact .inr ⟨value, List.mem_cons_of_mem _ hvalue, hreach⟩

/-- The values themselves are met. -/
theorem mem_of_mem (h : Walked heap seen values out) {value : Value} {ref : Ref}
    (hvalue : value ∈ values) (href : value.ref? = some ref) : ref ∈ out := by
  induction h with
  | nil => cases hvalue
  | scalar hnone _ ih =>
    rcases List.mem_cons.1 hvalue with rfl | hvalue
    · rw [hnone] at href
      cases href
    · exact ih hvalue
  | known hsome hseen hrest ih =>
    rcases List.mem_cons.1 hvalue with rfl | hvalue
    · obtain rfl := Option.some.inj (hsome.symm.trans href)
      exact hrest.subset hseen
    · exact ih hvalue
  | new hsome _ hbelow hrest _ ih₂ =>
    rcases List.mem_cons.1 hvalue with rfl | hvalue
    · obtain rfl := Option.some.inj (hsome.symm.trans href)
      exact hrest.subset (hbelow.subset (List.mem_cons_self ..))
    · exact ih₂ hvalue

/-- Of a container that was added, all parts are there as well. -/
theorem closed (h : Walked heap seen values out) {parent ref : Ref} (hmem : parent ∈ out)
    (hnew : parent ∉ seen) (hchild : heap.Child parent ref) : ref ∈ out := by
  induction h with
  | nil => exact absurd hmem hnew
  | scalar _ _ ih => exact ih hmem hnew
  | known _ _ _ ih => exact ih hmem hnew
  | @new seen below out value values root hsome _ hbelow hrest ih₁ ih₂ =>
    by_cases hin : parent ∈ below
    · refine hrest.subset ?_
      by_cases hroot : parent = root
      · subst hroot
        obtain ⟨part, hpart, hpart'⟩ := hchild
        exact hbelow.mem_of_mem hpart hpart'
      · exact ih₁ hin fun hcons => (List.mem_cons.1 hcons).elim hroot hnew
    · exact ih₂ hmem hin

/-- Two walks one after the other are one walk. -/
theorem cons {value : Value} {below : List Ref} (h : Walked heap seen [value] below)
    (hrest : Walked heap below values out) : Walked heap seen (value :: values) out := by
  cases h with
  | scalar hnone hnil => cases hnil; exact .scalar hnone hrest
  | known hsome hseen hnil => cases hnil; exact .known hsome hseen hrest
  | new hsome hnew hbelow hnil => cases hnil; exact .new hsome hnew hbelow hrest

/-- The walk is determined by where it begins. -/
theorem unique {out' : List Ref} (h : Walked heap seen values out)
    (h' : Walked heap seen values out') : out = out' := by
  induction h generalizing out' with
  | nil => cases h'; rfl
  | scalar hnone _ ih =>
    cases h' with
    | scalar _ h' => exact ih h'
    | known hsome _ _ => rw [hnone] at hsome; cases hsome
    | new hsome _ _ _ => rw [hnone] at hsome; cases hsome
  | known hsome hseen _ ih =>
    cases h' with
    | scalar hnone _ => rw [hnone] at hsome; cases hsome
    | known _ _ h' => exact ih h'
    | new hsome' hnew _ _ =>
      obtain rfl := Option.some.inj (hsome.symm.trans hsome')
      exact absurd hseen hnew
  | new hsome hnew _ _ ih₁ ih₂ =>
    cases h' with
    | scalar hnone _ => rw [hnone] at hsome; cases hsome
    | known hsome' hseen _ =>
      obtain rfl := Option.some.inj (hsome.symm.trans hsome')
      exact absurd hseen hnew
    | new hsome' _ hbelow' h' =>
      obtain rfl := Option.some.inj (hsome.symm.trans hsome')
      obtain rfl := ih₁ hbelow'
      exact ih₂ h'

end Walked

/-! ## The bound is enough -/

/-- The containers of the heap that have not been seen. -/
def unseen (heap : Heap) (seen : List Ref) : Finset Ref :=
  Finset.range heap.size \ seen.toFinset

theorem unseen_anti {seen seen' : List Ref} (h : seen ⊆ seen') :
    heap.unseen seen' ⊆ heap.unseen seen := by
  refine Finset.sdiff_subset_sdiff (Finset.Subset.refl _) ?_
  intro ref hmem
  exact List.mem_toFinset.2 (h (List.mem_toFinset.1 hmem))

/-- Seeing one more container of the heap leaves fewer to be seen. -/
theorem card_unseen_cons_lt {seen : List Ref} {ref : Ref} (hlt : ref < heap.size)
    (hnew : ref ∉ seen) : (heap.unseen (ref :: seen)).card < (heap.unseen seen).card := by
  refine Finset.card_lt_card ⟨unseen_anti (List.subset_cons_self _ _), fun hsub => ?_⟩
  have hmem : ref ∈ heap.unseen seen := by
    simp [unseen, hnew, hlt]
  have := hsub hmem
  simp [unseen] at this

/-- **A walk with depth to spare is the walk without a bound.** -/
theorem walked_walk : ∀ (depth : Nat) (seen : List Ref) (value : Value),
    (heap.unseen seen).card < depth → heap.Walked seen [value] (heap.walk depth seen value) := by
  intro depth
  induction depth with
  | zero => intro seen value h; exact absurd h (Nat.not_lt_zero _)
  | succ depth ih =>
    intro seen value h
    have hfold : ∀ (values : List Value) (seen : List Ref), (heap.unseen seen).card < depth →
        heap.Walked seen values (values.foldl (heap.walk depth) seen) := by
      intro values
      induction values with
      | nil => intro seen _; exact .nil
      | cons first rest ihrest =>
        intro seen hseen
        have hfirst := ih seen first hseen
        refine hfirst.cons (ihrest _ ?_)
        exact Nat.lt_of_le_of_lt (Finset.card_le_card (unseen_anti hfirst.subset)) hseen
    unfold walk
    split
    · rename_i hnone
      exact .scalar hnone .nil
    · rename_i ref hsome
      split
      · rename_i hseen
        exact .known hsome hseen .nil
      · rename_i hnew
        refine .new hsome hnew ?_ .nil
        by_cases hlt : ref < heap.size
        · refine hfold _ _ ?_
          have := card_unseen_cons_lt hlt hnew
          omega
        · -- A reference that leads nowhere may use up the last of the depth.
          rw [children_of_size_le (Nat.not_lt.1 hlt)]
          exact .nil

theorem walked_reach (heap : Heap) (value : Value) :
    heap.Walked [] [value] (heap.reach value).reverse := by
  rw [reach, List.reverse_reverse]
  refine walked_walk _ _ _ ?_
  simp [unseen]

/-- **Exactly the containers that can be reached are listed.** -/
theorem mem_reach_iff {value : Value} {ref : Ref} :
    ref ∈ heap.reach value ↔ heap.Reachable value ref := by
  rw [← List.mem_reverse]
  have hwalk := walked_reach heap value
  constructor
  · intro hmem
    rcases hwalk.sound hmem with hnil | ⟨first, hfirst, hreach⟩
    · cases hnil
    · obtain rfl := List.mem_singleton.1 hfirst
      exact hreach
  · intro hreach
    induction hreach with
    | root hroot => exact hwalk.mem_of_mem (List.mem_singleton_self _) hroot
    | child _ hchild ih => exact hwalk.closed ih List.not_mem_nil hchild

/-- **Each container is listed once.** -/
theorem nodup_reach (heap : Heap) (value : Value) : (heap.reach value).Nodup :=
  List.nodup_reverse.1 ((walked_reach heap value).nodup List.nodup_nil)

end Conform.Heap
