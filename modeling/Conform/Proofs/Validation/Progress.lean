import Conform.Proofs.Validation.Frame
import Conform.Proofs.Value.Tree
import Conform.Validation.Keywords

/-!
# Going through the places of a container

Keywords that ask for the parts of a container go through its places one after the other:
what stands at a place is checked, and what comes of it is put back.  In a tree no part
leads to another or back to the container, so what is done at one place changes nothing at
the others.

What is known on the way is how far this has come: the places done are as they should be,
and everything else is as it was.  What it means for a place to be done is left open, but
it must not be undone as long as the place and what may be touched from it are spared.

## Main definitions

* `Heap.Spares`: a place, and what may be touched from it, are left as they are.
* `Progress`: how far the places of a container have been gone through.
* `Check.settle`: what is done at a place.

## Main results

* `Progress.next`, `Progress.put`, `Progress.skip`: one more place is done.
* `Check.field_apply`, `Check.item_eq`, `Check.entry_eq`: fields, items and entries are places
  that are settled.
-/

namespace Conform

/-- Contents that have changed at one place at most. -/
structure Container.ChangedAt (accessor : Accessor) (before after : Container) : Prop where
  takes : ∀ other, before.Takes other → after.Takes other
  part? : ∀ other, other ≠ accessor → after.part? other = before.part? other
  accessors : accessor ∈ before.accessors → after.accessors = before.accessors
  keys : ∀ keep : String → Bool, (∀ name, accessor = .key name → keep name = false) →
    after.fields.keys.filter keep = before.fields.keys.filter keep

theorem Container.changedAt_refl (accessor : Accessor) (contents : Container) :
    ChangedAt accessor contents contents :=
  ⟨fun _ => id, fun _ _ => rfl, fun _ => rfl, fun _ _ => rfl⟩

theorem Container.changedAt_put {accessor : Accessor} {contents : Container}
    (h : contents.Takes accessor) (value : Value) :
    ChangedAt accessor contents (contents.put accessor value) where
  takes := fun _ => Takes.put
  part? := fun other hne => by rw [part?_put h, if_neg hne]
  accessors := fun hmem => accessors_put hmem value
  keys := fun _ => filter_keys_put

/-- Where none comes twice, one is none of those before it. -/
theorem ne_of_nodup_map {α β : Type} {f : α → β} {xs done rest : List α} {x : α}
    (hnodup : (xs.map f).Nodup) (hxs : xs = done ++ x :: rest) : ∀ other ∈ done, f other ≠ f x := by
  intro other hother heq
  rw [hxs, List.map_append, List.map_cons, List.nodup_append] at hnodup
  exact hnodup.2.2 _ (List.mem_map_of_mem hother) _ List.mem_cons_self heq

/-- A place and what may be touched from what stood there are left as they are. -/
structure Heap.Spares (base : Heap) (container : Value) (accessor : Accessor)
    (heap after : Heap) : Prop where
  size_le : heap.size ≤ after.size
  step?_eq : after.step? container accessor = heap.step? container accessor
  fetch_eq : ∀ r, r < heap.size → base.Touchable (base.get container accessor) r →
    after.fetch r = heap.fetch r

/-- How far the places of a container have been gone through: those done are settled, and
all others are as they were. -/
structure Progress {τ : Type} (base : Heap) (container : Value) (ref : Ref)
    (accessor : τ → Accessor) (Settled : Heap → τ → Prop) (done : List τ) (heap : Heap) :
    Prop where
  size_le : base.size ≤ heap.size
  opens : heap.Opens container ref (heap.fetch ref)
  takes : ∀ accessor, (base.fetch ref).Takes accessor → (heap.fetch ref).Takes accessor
  accessors : (∀ place ∈ done, accessor place ∈ (base.fetch ref).accessors) →
    (heap.fetch ref).accessors = (base.fetch ref).accessors
  keys : ∀ keep : String → Bool,
    (∀ place ∈ done, ∀ name, accessor place = .key name → keep name = false) →
      (heap.fetch ref).fields.keys.filter keep = (base.fetch ref).fields.keys.filter keep
  others : ∀ other, (∀ place ∈ done, accessor place ≠ other) →
    heap.step? container other = base.step? container other ∧
      ∀ r, base.Reachable (base.get container other) r → heap.fetch r = base.fetch r
  settled : ∀ place ∈ done, Settled heap place

namespace Progress

variable {τ : Type} {base heap after : Heap} {container : Value} {ref : Ref}
  {accessor : τ → Accessor} {Settled : Heap → τ → Prop} {done : List τ} {place : τ}

theorem start {contents : Container} (hopens : base.Opens container ref contents) :
    Progress base container ref accessor Settled [] base where
  size_le := Nat.le_refl _
  opens := by rwa [hopens.fetch_eq]
  takes := fun _ => id
  accessors := fun _ => rfl
  keys := fun _ _ => rfl
  others := fun _ _ => ⟨rfl, fun _ _ => rfl⟩
  settled := List.forall_mem_nil _

section Tree

variable {contents : Container} (hopens : base.Opens container ref contents)
  (htree : base.Tree container) (hheld : base.Holds container)
include hopens htree hheld

/-- What may be touched from a part of a tree is not the whole. -/
theorem ne_of_touchable {accessor : Accessor} {r : Ref}
    (h : base.Touchable (base.get container accessor) r) : r ≠ ref := by
  rintro rfl
  rcases h with hreach | hle
  · exact htree.not_reachable_root hopens accessor hreach
  · exact absurd (hheld r (.root hopens.ref?_eq)) (Nat.not_lt.2 hle)

variable (h : Progress base container ref accessor Settled done heap)
  (hnew : ∀ other ∈ done, accessor other ≠ accessor place)
  (hlasts : ∀ (place : τ) (heap after : Heap), base.Spares container (accessor place) heap after →
    Settled heap place → Settled after place)
include h hnew hlasts

/-- **One more place is done** when it is settled and at most the place itself and what its
part leads to has changed: parts of a tree are apart. -/
theorem next (hsize : heap.size ≤ after.size)
    (hframe : ∀ r, r < heap.size → r ≠ ref →
      ¬ base.Reachable (base.get container (accessor place)) r → after.fetch r = heap.fetch r)
    (hchanged : Container.ChangedAt (accessor place) (heap.fetch ref) (after.fetch ref))
    (hafter : after.Opens container ref (after.fetch ref)) (hsettled : Settled after place) :
    Progress base container ref accessor Settled (done ++ [place]) after := by
  -- What another part may touch is neither the container nor of this part.
  have hspares : ∀ other, other ≠ accessor place → base.Spares container other heap after := by
    intro other hne
    refine ⟨hsize, ?_, fun r hlt htouchable => ?_⟩
    · rw [hafter.step?_eq, h.opens.step?_eq, hchanged.part? other hne]
    · refine hframe r hlt (ne_of_touchable hopens htree hheld htouchable) fun hreach => ?_
      rcases htouchable with hreach' | hle
      · exact htree.disjoint hopens hne hreach' hreach
      · exact absurd (hheld.get (accessor place) r hreach) (Nat.not_lt.2 hle)
  -- What was done before is another part too, so it stays as it has been settled.
  refine ⟨Nat.le_trans h.size_le hsize, hafter, fun other htakes => ?_, fun hold => ?_,
    fun keep hkeep => ?_, fun other hnot => ?_, fun other hmem => ?_⟩
  · exact hchanged.takes other (h.takes other htakes)
  · simp only [List.forall_mem_append, List.forall_mem_singleton] at hold
    have hsame := h.accessors hold.1
    rw [hchanged.accessors (hsame ▸ hold.2), hsame]
  · simp only [List.forall_mem_append, List.forall_mem_singleton] at hkeep
    rw [hchanged.keys keep hkeep.2, h.keys keep hkeep.1]
  · simp only [List.forall_mem_append, List.forall_mem_singleton] at hnot
    obtain ⟨hsame, hfetch⟩ := h.others other hnot.1
    have hother := hspares other (Ne.symm hnot.2)
    refine ⟨hother.step?_eq.trans hsame, fun r hreach => ?_⟩
    have hlt := Nat.lt_of_lt_of_le (hheld.get other r hreach) h.size_le
    rw [hother.fetch_eq r hlt (.inl hreach), hfetch r hreach]
  · rcases List.mem_append.1 hmem with hmem | hmem
    · exact hlasts other heap after (hspares _ (hnew other hmem)) (h.settled other hmem)
    · obtain rfl := List.mem_singleton.1 hmem
      exact hsettled

section Part

variable {checked : Value} (hsize : heap.size ≤ after.size)
  (hframe : ∀ r, r < heap.size → ¬ base.Reachable (base.get container (accessor place)) r →
    after.fetch r = heap.fetch r)
include hsize hframe

/-- A part that has been checked is put back in its place. -/
theorem put (htakes : contents.Takes (accessor place))
    (hsettled : ∀ final : Heap, final.size = after.size →
      final.step? container (accessor place) = some checked →
      (∀ r, base.Touchable (base.get container (accessor place)) r →
        final.fetch r = after.fetch r) → Settled final place) :
    Progress base container ref accessor Settled (done ++ [place])
      (after.store ref ((after.fetch ref).put (accessor place) checked)) := by
  have hlt := Nat.lt_of_lt_of_le (hheld ref (.root hopens.ref?_eq)) h.size_le
  -- The part does not lead back, so its check has left the container as it was.
  have hcontents := hframe ref hlt (htree.not_reachable_root hopens (accessor place))
  have htakes := h.takes (accessor place) (hopens.fetch_eq ▸ htakes)
  have hafter := (h.opens.of_fetch_eq hcontents).put (Nat.lt_of_lt_of_le hlt hsize)
    (accessor place) checked
  have hfetch := Heap.fetch_store_self after ((after.fetch ref).put (accessor place) checked)
    (Nat.lt_of_lt_of_le hlt hsize)
  rw [← hcontents] at hafter htakes
  refine next hopens htree hheld h hnew hlasts ?_ (fun r hr hne hout => ?_) ?_ ?_
    (hsettled _ (Heap.size_store ..) ?_ fun r htouchable => ?_)
  · rwa [Heap.size_store]
  · rw [Heap.fetch_store_of_ne _ _ (Ne.symm hne)]
    exact hframe r hr hout
  · rw [hfetch, ← hcontents]
    exact Container.changedAt_put htakes checked
  · rwa [hfetch]
  · exact (hafter.step?_eq _).trans (by rw [Container.part?_put htakes, if_pos rfl])
  · exact Heap.fetch_store_of_ne _ _ (Ne.symm (ne_of_touchable hopens htree hheld htouchable))

/-- Nothing is put where nothing was and nothing came of it. -/
theorem skip (hnone : base.step? container (accessor place) = none)
    (hsettled : after.step? container (accessor place) = none → Settled after place) :
    Progress base container ref accessor Settled (done ++ [place]) after := by
  have hlt := Nat.lt_of_lt_of_le (hheld ref (.root hopens.ref?_eq)) h.size_le
  have hcontents := hframe ref hlt (htree.not_reachable_root hopens (accessor place))
  have hafter := h.opens.of_fetch_eq hcontents
  have hstep := (h.others (accessor place) hnew).1
  refine next hopens htree hheld h hnew hlasts hsize (fun r hr _ hout => hframe r hr hout) ?_ ?_
    (hsettled ?_)
  · rw [hcontents]
    exact Container.changedAt_refl _ _
  · rwa [hcontents]
  · rw [hafter.step?_eq, ← h.opens.step?_eq, hstep, hnone]

end Part

end Tree

end Progress

namespace Check

variable {σ : Type}

/-- Checks what stands at a place and puts back what comes of it, if anything does or did. -/
def settle (recurse : Recurse σ) (ref : Ref) (place : Accessor × Definition)
    (current : Option Value) : Check σ Unit := do
  let checked ← under place.1 (recurse (current.getD .null) place.2)
  if current.isSome || !checked.isAbsent then
    changeHeap fun heap => heap.store ref ((heap.fetch ref).put place.1 checked)
  else pure ()

section Steps

variable (recurse : Recurse σ) (ref : Ref) (definition : Definition)

theorem field_apply (name : String) (session : Session σ) :
    field recurse ref name definition session =
      settle recurse ref (.key name, definition)
        (session.world.heap.step? (.object ref) (.key name)) session := by
  simp only [field, settle, Heap.insertField_eq_store, Container.mapFields_insert]
  rfl

theorem item_eq (value : Value) (i : Nat) :
    item recurse ref definition value i =
      settle recurse ref (.index i, definition) (some value) := by
  simp only [item, settle, Heap.setItem_eq_store, Container.mapItems_set, Option.isSome_some,
    Bool.true_or, if_true, Option.getD_some]

theorem entry_eq (name : String) (value : Value) :
    entry recurse ref definition name value =
      settle recurse ref (.key name, definition) (some value) := by
  simp only [entry, settle, Heap.insertField_eq_store, Container.mapFields_insert,
    Option.isSome_some, Bool.true_or, if_true, Option.getD_some]

end Steps

end Check

end Conform
