import Mathlib.Data.List.Pairwise
import Conform.Proofs.Value.Denotation
import Conform.Proofs.Value.Document
import Conform.Proofs.Value.Tree

/-!
# Trees in a growing heap

A value is planted in a heap when it is a tree, all of it is in the heap, and every
reference leads to a container of its own kind.  A planted value stays so where what it
leads to is left as it is, whatever becomes of the rest of the heap, and its parts are
planted too.

A document that is made a value is planted: each of its containers is new, and the parts of
a container have been made one after the other, so they have nothing in common.

## Main definitions

* `Heap.Retains`: what a value leads to is as it was.
* `Heap.Apart`: values that lead to nothing in common.
* `Heap.Planted`: trees whose references lead where they should.
* `Heap.Grove`: new values that have nothing in common.

## Main results

* `Heap.Planted.of_retains`, `Heap.Planted.get`: planted values stay so, and so are their parts.
* `Heap.planted_ofJson`: the value of a document is planted.
-/

namespace Conform.Heap

/-! ## Where nothing changes -/

/-- What a value leads to is as it was. -/
def Retains (base : Heap) (value : Value) (heap : Heap) : Prop :=
  ∀ ref, base.Reachable value ref → heap.fetch ref = base.fetch ref

variable {base heap later : Heap} {value part : Value} {ref root : Ref} {contents : Container}

namespace Retains

theorem refl (heap : Heap) (value : Value) : heap.Retains value heap := fun _ _ => rfl

theorem reachable (h : base.Retains value heap) (hreach : heap.Reachable value ref) :
    base.Reachable value ref :=
  hreach.of_fetch_eq h

theorem symm (h : base.Retains value heap) : heap.Retains value base :=
  fun ref hreach => (h ref (h.reachable hreach)).symm

theorem trans (h : base.Retains value heap) (h' : heap.Retains value later) :
    base.Retains value later :=
  fun ref hreach => (h' ref (h.symm.reachable hreach)).trans (h ref hreach)

/-- What a part leads to, the whole leads to. -/
theorem of_mem (h : base.Retains value heap) (href : value.ref? = some root)
    (hpart : part ∈ base.children root) : base.Retains part heap :=
  fun ref hreach => h ref (.of_child (.root href) hpart hreach)

theorem get (h : base.Retains value heap) (hopens : base.Opens value root contents)
    (accessor : Accessor) : base.Retains (base.get value accessor) heap := by
  unfold Heap.get
  rw [hopens.step?_eq]
  cases hpart : contents.part? accessor with
  | none => exact fun ref hreach => absurd hreach (not_reachable_of_ref?_none rfl ref)
  | some part =>
    refine h.of_mem hopens.ref?_eq (Container.mem_children_iff.2 ⟨accessor, ?_⟩)
    rwa [hopens.fetch_eq]

/-- What a value is equal to hangs on its own containers. -/
theorem equalsJson_eq (h : base.Retains value heap) (json : Json) :
    value.equalsJson heap json = value.equalsJson base json := by
  let same : Ref → Ref → Prop := fun r s => r = s ∧ base.Reachable value r
  have hagree : Heap.Agree same heap base := by
    rintro r _ ⟨rfl, hreach⟩
    rw [h r hreach]
    exact .refl fun part hpart ref href => ⟨rfl, .child hreach ⟨part, hpart, href⟩⟩
  exact Value.equalsJson_eq hagree json (.refl fun ref href => ⟨rfl, .root href⟩)

end Retains

/-- In a heap that has grown, what was there is retained. -/
theorem Extends.retains (h : base.Extends heap) (hvalue : base.Holds value) :
    base.Retains value heap :=
  fun ref hreach => h.fetch_eq ref (hvalue ref hreach)

/-- Two values lead to nothing in common. -/
def Apart (heap : Heap) (v w : Value) : Prop :=
  ∀ ref, heap.Reachable v ref → ¬ heap.Reachable w ref

instance (heap : Heap) : Std.Symm heap.Apart where
  symm := fun _ _ h ref hw hv => h ref hv hw

/-! ## Paths and parts -/

theorem Path.of_retains {path : List Accessor} (h : heap.Path value path ref)
    (hretains : base.Retains value heap) : base.Path value path ref := by
  induction h with
  | here href => exact .here href
  | step href hpart _ ih =>
    rw [hretains _ (.root href)] at hpart
    exact .step href hpart
      (ih (hretains.of_mem href (Container.mem_children_iff.2 ⟨_, hpart⟩)))

theorem Tree.of_retains (h : base.Tree value) (hretains : base.Retains value heap) :
    heap.Tree value :=
  fun ref p q hp hq => h ref p q (hp.of_retains hretains) (hq.of_retains hretains)

/-- What a value leads to is its own container or in one of its parts. -/
theorem Opens.reachable_cases (h : heap.Opens value root contents)
    (hreach : heap.Reachable value ref) :
    ref = root ∨ ∃ accessor part, contents.part? accessor = some part ∧
      heap.Reachable part ref := by
  obtain ⟨path, hpath⟩ := exists_path_of_reachable hreach
  cases hpath with
  | here href => exact .inl (Option.some.inj (href.symm.trans h.ref?_eq))
  | step href hpart hrest =>
    obtain rfl := Option.some.inj (href.symm.trans h.ref?_eq)
    exact .inr ⟨_, _, h.fetch_eq ▸ hpart, hrest.reachable⟩

/-- **A tree is put together** of trees that have nothing in common and do not lead back. -/
theorem Tree.of_parts (hopens : heap.Opens value root contents)
    (hparts : ∀ part ∈ contents.children, heap.Tree part ∧ ¬ heap.Reachable part root)
    (hapart : ∀ a b v w, a ≠ b → contents.part? a = some v → contents.part? b = some w →
      heap.Apart v w) : heap.Tree value := by
  have hmem : ∀ {ref accessor part}, value.ref? = some ref →
      (heap.fetch ref).part? accessor = some part → contents.part? accessor = some part ∧
        part ∈ contents.children ∧ ref = root := by
    intro ref accessor part href hpart
    obtain rfl := Option.some.inj (href.symm.trans hopens.ref?_eq)
    rw [hopens.fetch_eq] at hpart
    exact ⟨hpart, Container.mem_children_iff.2 ⟨_, hpart⟩, rfl⟩
  -- Both paths stop at the container, or both go on into one part: no container is in two.
  intro ref p q hp hq
  cases hp with
  | here href =>
    cases hq with
    | here _ => rfl
    | step href' hpart hrest =>
      obtain ⟨-, hchild, rfl⟩ := hmem href' hpart
      obtain rfl := Option.some.inj (href.symm.trans href')
      exact absurd hrest.reachable (hparts _ hchild).2
  | @step _ v _ _ a _ href hpart hrest =>
    obtain ⟨hpart, hchild, rfl⟩ := hmem href hpart
    cases hq with
    | here href' =>
      obtain rfl := Option.some.inj (href.symm.trans href')
      exact absurd hrest.reachable (hparts _ hchild).2
    | @step _ w _ _ b _ href' hpart' hrest' =>
      obtain ⟨hpart', -, -⟩ := hmem href' hpart'
      by_cases hab : a = b
      · subst hab
        obtain rfl := Option.some.inj (hpart.symm.trans hpart')
        rw [(hparts _ hchild).1 ref _ _ hrest hrest']
      · exact absurd hrest'.reachable (hapart a b v w hab hpart hpart' ref hrest.reachable)

/-! ## Planted values -/

/-- A tree that is all in the heap, with every reference to a container of its own kind. -/
structure Planted (heap : Heap) (value : Value) : Prop where
  holds : heap.Holds value
  tree : heap.Tree value
  opens : ∀ ref, value.ref? = some ref → ∃ contents, heap.Opens value ref contents
  parts : ∀ parent, heap.Reachable value parent → ∀ part ∈ heap.children parent,
    ∀ ref, part.ref? = some ref → ∃ contents, heap.Opens part ref contents

/-- A value that leads nowhere is planted. -/
theorem planted_of_ref?_none (h : value.ref? = none) : heap.Planted value where
  holds := fun ref hreach => absurd hreach (not_reachable_of_ref?_none h ref)
  tree := fun ref _ _ hp _ => absurd hp.reachable (not_reachable_of_ref?_none h ref)
  opens := fun ref href => by
    rw [h] at href
    cases href
  parts := fun parent hreach => absurd hreach (not_reachable_of_ref?_none h parent)

namespace Planted

/-- **A planted value stays so** where what it leads to does not change. -/
theorem of_retains (h : base.Planted value) (hretains : base.Retains value heap)
    (hsize : base.size ≤ heap.size) : heap.Planted value where
  holds := fun ref hreach => Nat.lt_of_lt_of_le (h.holds ref (hretains.reachable hreach)) hsize
  tree := h.tree.of_retains hretains
  opens := fun ref href => by
    obtain ⟨contents, hopens⟩ := h.opens ref href
    exact ⟨contents, hopens.of_fetch_eq (hretains ref (.root href))⟩
  parts := fun parent hreach part hpart ref href => by
    have hreach := hretains.reachable hreach
    rw [children, hretains parent hreach] at hpart
    obtain ⟨contents, hopens⟩ := h.parts parent hreach part hpart ref href
    exact ⟨contents, hopens.of_fetch_eq (hretains ref (.child hreach ⟨part, hpart, href⟩))⟩

/-- **Parts of planted values** are planted. -/
theorem get (h : heap.Planted value) (hopens : heap.Opens value root contents)
    (accessor : Accessor) : heap.Planted (heap.get value accessor) := by
  have htree := h.tree.get hopens.ref?_eq accessor
  unfold Heap.get at htree ⊢
  rw [hopens.step?_eq] at htree ⊢
  cases hpart : contents.part? accessor with
  | none => exact planted_of_ref?_none rfl
  | some part =>
    rw [hpart] at htree
    have hmem : part ∈ heap.children root := by
      rw [children, hopens.fetch_eq]
      exact Container.mem_children_iff.2 ⟨accessor, hpart⟩
    have hroot : heap.Reachable value root := .root hopens.ref?_eq
    exact
      { holds := fun ref hreach => h.holds ref (.of_child hroot hmem hreach)
        tree := htree
        opens := h.parts root hroot part hmem
        parts := fun parent hreach => h.parts parent (.of_child hroot hmem hreach) }

end Planted

/-- A new container of planted values that have nothing in common is planted. -/
theorem planted_allocate (hopens : (allocate contents heap).2.Opens value heap.size contents)
    (hparts : ∀ part ∈ contents.children, heap.Planted part)
    (hapart : ∀ a b v w, a ≠ b → contents.part? a = some v → contents.part? b = some w →
      heap.Apart v w) :
    (allocate contents heap).2.Planted value := by
  have hextends := Extends.allocate heap contents
  have hretains : ∀ part ∈ contents.children, heap.Retains part (allocate contents heap).2 :=
    fun part hpart => hextends.retains (hparts part hpart).holds
  have hplanted : ∀ part ∈ contents.children, (allocate contents heap).2.Planted part :=
    fun part hpart => (hparts part hpart).of_retains (hretains part hpart) hextends.size_le
  have hchild : ∀ {accessor part}, contents.part? accessor = some part →
      part ∈ contents.children := fun h => Container.mem_children_iff.2 ⟨_, h⟩
  have htree : (allocate contents heap).2.Tree value := by
    refine .of_parts hopens (fun part hpart => ⟨(hplanted part hpart).tree, fun hback => ?_⟩)
      fun a b v w hab hv hw ref hreach hreach' => ?_
    · -- The parts were there before the container.
      exact Nat.lt_irrefl _
        ((hparts part hpart).holds _ ((hretains part hpart).reachable hback))
    · exact hapart a b v w hab hv hw ref ((hretains v (hchild hv)).reachable hreach)
        ((hretains w (hchild hw)).reachable hreach')
  refine
    { holds := fun ref hreach => ?_
      tree := htree
      opens := fun ref href => ?_
      parts := fun parent hreach part hpart ref href => ?_ }
  · rcases hopens.reachable_cases hreach with rfl | ⟨_, part, hpart, hreach⟩
    · rw [size_allocate]
      exact Nat.lt_succ_self _
    · exact (hplanted part (hchild hpart)).holds ref hreach
  · obtain rfl := Option.some.inj (href.symm.trans hopens.ref?_eq)
    exact ⟨contents, hopens⟩
  · rcases hopens.reachable_cases hreach with rfl | ⟨_, inner, hinner, hreach⟩
    · rw [children, hopens.fetch_eq] at hpart
      exact (hplanted part hpart).opens ref href
    · exact (hplanted inner (hchild hinner)).parts parent hreach part hpart ref href

/-! ## Documents -/

/-- Planted values that are new and have nothing in common. -/
structure Grove (base heap : Heap) (values : List Value) : Prop where
  planted : ∀ value ∈ values, heap.Planted value
  new : ∀ value ∈ values, ∀ ref, heap.Reachable value ref → base.size ≤ ref
  apart : values.Pairwise heap.Apart

namespace Grove

variable {values : List Value}

theorem nil : Grove base heap [] :=
  ⟨List.forall_mem_nil _, List.forall_mem_nil _, .nil⟩

/-- One more value that has been made before. -/
theorem cons (hsize : base.size ≤ heap.size) (hextends : heap.Extends later)
    (hvalue : heap.Planted value) (hnew : ∀ ref, heap.Reachable value ref → base.size ≤ ref)
    (hrest : Grove heap later values) : Grove base later (value :: values) := by
  have hretains := hextends.retains hvalue.holds
  -- What was there before is not among what has been made since.
  refine ⟨List.forall_mem_cons.2 ⟨hvalue.of_retains hretains hextends.size_le, hrest.planted⟩,
    List.forall_mem_cons.2 ⟨fun ref hreach => hnew ref (hretains.reachable hreach),
      fun v hv ref hreach => Nat.le_trans hsize (hrest.new v hv ref hreach)⟩,
    .cons (fun v hv ref hreach hreach' => ?_) hrest.apart⟩
  exact Nat.not_lt.2 (hrest.new v hv ref hreach') (hvalue.holds ref (hretains.reachable hreach))

/-- An array of a grove. -/
theorem array (h : Grove base heap values) :
    (allocate (.array values) heap).2.Planted (.array heap.size) := by
  have hfetch : (allocate (.array values) heap).2.fetch heap.size = .array values := by
    rw [fetch_allocate, if_pos rfl]
  refine planted_allocate (.array hfetch) h.planted fun a b v w hab hv hw => ?_
  cases a with
  | key => cases hv
  | index i =>
    cases b with
    | key => cases hw
    | index j =>
      obtain ⟨hi, rfl⟩ := List.getElem?_eq_some_iff.1 (hv : values[i]? = some v)
      obtain ⟨hj, rfl⟩ := List.getElem?_eq_some_iff.1 (hw : values[j]? = some w)
      have hne : i ≠ j := fun heq => hab (congrArg Accessor.index heq)
      rcases Nat.lt_or_gt_of_ne hne with hlt | hlt
      · exact List.pairwise_iff_getElem.1 h.apart i j hi hj hlt
      · exact symm (List.pairwise_iff_getElem.1 h.apart j i hj hi hlt)

/-- An object of a grove. -/
theorem object {pairs : List (String × Value)} (h : Grove base heap (pairs.map Prod.snd)) :
    (allocate (.object (.ofList pairs)) heap).2.Planted (.object heap.size) := by
  have hfetch : (allocate (.object (.ofList pairs)) heap).2.fetch heap.size =
      .object (.ofList pairs) := by
    rw [fetch_allocate, if_pos rfl]
  refine planted_allocate (.object hfetch) (fun part hpart => ?_)
    fun a b v w hab hv hw => ?_
  · obtain ⟨accessor, hpart⟩ := Container.mem_children_iff.1 hpart
    obtain ⟨name, -, hpair⟩ := Container.mem_of_part?_ofList hpart
    exact h.planted part (List.mem_map_of_mem hpair)
  · obtain ⟨name, rfl, hpair⟩ := Container.mem_of_part?_ofList hv
    obtain ⟨other, rfl, hpair'⟩ := Container.mem_of_part?_ofList hw
    have hsymm : Std.Symm fun x y : String × Value => heap.Apart x.2 y.2 := ⟨fun _ _ => symm⟩
    refine (List.pairwise_map.1 h.apart).forall hpair hpair' fun heq => ?_
    exact hab (congrArg (Accessor.key ·.1) heq)

end Grove

theorem new_of_reachable_ofJson {json : Json}
    (h : (Value.ofJson json heap).2.Reachable (Value.ofJson json heap).1 ref) :
    heap.size ≤ ref := by
  induction h with
  | root href => exact (new_of_ref?_ofJson href).1
  | child _ hchild ih => exact (new_of_child_ofJson ih hchild).1

mutual

/-- **The value of a document is planted.** -/
theorem planted_ofJson (json : Json) (heap : Heap) :
    (Value.ofJson json heap).2.Planted (Value.ofJson json heap).1 := by
  cases json with
  | array items => exact (grove_ofItems items heap).array
  | object members => exact (grove_ofMembers members heap).object
  | _ => exact planted_of_ref?_none rfl

theorem grove_ofItems (items : List Json) (heap : Heap) :
    Grove heap (Value.ofItems items heap).2 (Value.ofItems items heap).1 := by
  cases items with
  | nil => exact .nil
  | cons item rest =>
    exact .cons (HeapM.makes_ofJson item heap).1.size_le
      (HeapM.makes_ofItems rest (Value.ofJson item heap).2).1 (planted_ofJson item heap)
      (fun _ => new_of_reachable_ofJson) (grove_ofItems rest (Value.ofJson item heap).2)

theorem grove_ofMembers (members : List (String × Json)) (heap : Heap) :
    Grove heap (Value.ofMembers members heap).2
      ((Value.ofMembers members heap).1.map Prod.snd) := by
  cases members with
  | nil => exact .nil
  | cons member rest =>
    obtain ⟨name, json⟩ := member
    exact .cons (HeapM.makes_ofJson json heap).1.size_le
      (HeapM.makes_ofMembers rest (Value.ofJson json heap).2).1 (planted_ofJson json heap)
      (fun _ => new_of_reachable_ofJson) (grove_ofMembers rest (Value.ofJson json heap).2)

end

end Conform.Heap
