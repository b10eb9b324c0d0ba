import Conform.Value.Copy
import Conform.Proofs.Value.Alike
import Conform.Proofs.Value.Reach

/-!
# The shape of a copy

A copy takes new places, one for each container of the value, and what stood in the
original stands in the copy with its containers renamed.  So a value and its copy are
alike under the relation that pairs every container with its copy, and the copies of
alike values are alike.

## Main definitions

* `Ref.Copied`: a container and its copy.

## Main results

* `Value.agree_copyWithOrigins`: a container and its copy are alike.
* `Value.child_copyWithOrigins`: copies hold nothing but copies.
* `Heap.Agree.reach`: alike values have corresponding containers, in the same order.
* `Heap.rel_renameTo`: so their containers are renamed to corresponding places.
-/

namespace Conform

/-- The second container is the copy of the first, when the containers `originals` are
copied to the places from `base` on. -/
def Ref.Copied (originals : List Ref) (base : Nat) (original copy : Ref) : Prop :=
  ∃ i, originals[i]? = some original ∧ copy = base + i

namespace Ref

variable {originals : List Ref} {base : Nat}

/-- Each container has one copy, and no copy two originals. -/
theorem Copied.biUnique (hnodup : originals.Nodup) : Relator.BiUnique (Copied originals base) := by
  constructor
  · rintro r r' s ⟨i, hi, rfl⟩ ⟨j, hj, heq⟩
    obtain rfl : i = j := Nat.add_left_cancel heq
    exact Option.some.inj (hi.symm.trans hj)
  · rintro r s s' ⟨i, hi, rfl⟩ ⟨j, hj, rfl⟩
    have hlt : i < originals.length := (List.getElem?_eq_some_iff.1 hi).1
    rw [(List.getElem?_inj hlt hnodup).1 (hi.trans hj.symm)]

theorem Copied.mem {original copy : Ref} (h : Copied originals base original copy) :
    original ∈ originals := by
  obtain ⟨i, hi, -⟩ := h
  exact List.mem_of_getElem? hi

theorem Copied.le {original copy : Ref} (h : Copied originals base original copy) :
    base ≤ copy := by
  obtain ⟨i, -, rfl⟩ := h
  exact Nat.le_add_right _ _

theorem Copied.lt {original copy : Ref} (h : Copied originals base original copy) :
    copy < base + originals.length := by
  obtain ⟨i, hi, rfl⟩ := h
  exact Nat.add_lt_add_left (List.getElem?_eq_some_iff.1 hi).1 _

/-- Every place taken by a copy is the copy of a container. -/
theorem Copied.exists_of_lt {copy : Ref} (hle : base ≤ copy)
    (hlt : copy < base + originals.length) : ∃ original, Copied originals base original copy := by
  have hi : copy - base < originals.length := Nat.sub_lt_left_of_lt_add hle hlt
  exact ⟨originals[copy - base], copy - base, List.getElem?_eq_getElem hi,
    (Nat.add_sub_of_le hle).symm⟩

/-- A container that is copied is renamed to its copy. -/
theorem copied_renameTo {original : Ref} (h : original ∈ originals) :
    Copied originals base original (renameTo originals base original) := by
  unfold renameTo
  cases hidx : originals.idxOf? original with
  | none => exact absurd h (List.idxOf?_eq_none_iff.1 hidx)
  | some i =>
    obtain ⟨hlt, heq, -⟩ := List.idxOf?_eq_some_iff.1 hidx
    refine ⟨i, ?_, rfl⟩
    rw [List.getElem?_eq_getElem hlt, heq]

end Ref

theorem Container.alike_mapValues {ref : Ref → Ref → Prop} {f : Ref → Ref} {c : Container}
    (h : ∀ v ∈ c.children, ∀ r, v.ref? = some r → ref r (f r)) :
    Container.Alike ref c (c.mapValues (Value.mapRef f)) := by
  have hvalue : ∀ v ∈ c.children, Value.Alike ref v (v.mapRef f) := by
    intro v hv
    cases v with
    | array r => exact .array (h _ hv r rfl)
    | object r => exact .object (h _ hv r rfl)
    | _ => exact .scalar rfl
  cases c with
  | array items => exact .array (List.forall₂_map_right_iff.2 (List.forall₂_same.2 hvalue))
  | object fields =>
    refine .object (List.forall₂_map_right_iff.2 (List.forall₂_same.2 fun entry hentry => ?_))
    exact ⟨rfl, hvalue _ (List.mem_map_of_mem hentry)⟩

/-! ## The heap with the copy -/

namespace Value

variable (value : Value) (heap : Heap)

theorem copyWithOrigins_fst :
    (value.copyWithOrigins heap).1.1 =
      value.mapRef (Ref.renameTo (heap.reach value) heap.size) := rfl

theorem size_copyWithOrigins :
    (value.copyWithOrigins heap).2.size = heap.size + (heap.reach value).length := by
  simp [copyWithOrigins, Heap.size]

/-- The pairs that come with a copy are its containers with their originals. -/
theorem mem_copyWithOrigins {copy original : Ref} :
    (copy, original) ∈ (value.copyWithOrigins heap).1.2 ↔
      Ref.Copied (heap.reach value) heap.size original copy := by
  simp only [copyWithOrigins, List.mem_map, Ref.Copied]
  constructor
  · rintro ⟨⟨o, i⟩, hmem, heq⟩
    obtain ⟨rfl, rfl⟩ := Prod.mk.inj heq
    exact ⟨i, List.mem_zipIdx_iff_getElem?.1 hmem, rfl⟩
  · rintro ⟨i, hi, rfl⟩
    exact ⟨(original, i), List.mem_zipIdx_iff_getElem?.2 hi, rfl⟩

/-- Copying leaves the containers there were as they are. -/
theorem fetch_copyWithOrigins_of_lt {ref : Ref} (h : ref < heap.size) :
    (value.copyWithOrigins heap).2.fetch ref = heap.fetch ref := by
  simp only [copyWithOrigins]
  rw [Heap.fetch_append, if_pos h]

/-- A copy holds what its original holds, renamed. -/
theorem fetch_copyWithOrigins {original copy : Ref}
    (h : Ref.Copied (heap.reach value) heap.size original copy) :
    (value.copyWithOrigins heap).2.fetch copy =
      (heap.fetch original).mapValues
        (Value.mapRef (Ref.renameTo (heap.reach value) heap.size)) := by
  obtain ⟨i, hi, rfl⟩ := h
  simp only [copyWithOrigins]
  rw [Heap.fetch_append, if_neg (Nat.not_lt.2 (Nat.le_add_right _ _)), Nat.add_sub_cancel_left]
  simp [Array.getD_eq_getD_getElem?, hi]

/-- **A container and its copy are alike.** -/
theorem agree_copyWithOrigins {original copy : Ref}
    (h : Ref.Copied (heap.reach value) heap.size original copy) :
    Container.Alike (Ref.Copied (heap.reach value) heap.size) (heap.fetch original)
      ((value.copyWithOrigins heap).2.fetch copy) := by
  rw [fetch_copyWithOrigins value heap h]
  refine Container.alike_mapValues fun part hpart ref href => Ref.copied_renameTo ?_
  have horiginal : heap.Reachable value original := Heap.mem_reach_iff.1 h.mem
  exact Heap.mem_reach_iff.2 (.child horiginal ⟨part, hpart, href⟩)

/-- A value and its copy are alike. -/
theorem alike_copyWithOrigins :
    Value.Alike (Ref.Copied (heap.reach value) heap.size) value
      (value.copyWithOrigins heap).1.1 := by
  rw [copyWithOrigins_fst]
  cases value with
  | array r => exact .array (Ref.copied_renameTo (Heap.mem_reach_iff.2 (.root rfl)))
  | object r => exact .object (Ref.copied_renameTo (Heap.mem_reach_iff.2 (.root rfl)))
  | _ => exact .scalar rfl

/-- A part of the original that leads to a container leads to its copy in the copy. -/
theorem copied_mapRef {part : Value} {copy : Ref}
    (hpart : ∀ ref, part.ref? = some ref → heap.Reachable value ref)
    (h : (part.mapRef (Ref.renameTo (heap.reach value) heap.size)).ref? = some copy) :
    ∃ original, Ref.Copied (heap.reach value) heap.size original copy := by
  cases part with
  | array r =>
    obtain rfl := Option.some.inj h
    exact ⟨r, Ref.copied_renameTo (Heap.mem_reach_iff.2 (hpart r rfl))⟩
  | object r =>
    obtain rfl := Option.some.inj h
    exact ⟨r, Ref.copied_renameTo (Heap.mem_reach_iff.2 (hpart r rfl))⟩
  | _ => cases h

/-- The container behind a copied value is a copy. -/
theorem ref?_copyWithOrigins {copy : Ref}
    (h : (value.copyWithOrigins heap).1.1.ref? = some copy) :
    ∃ original, Ref.Copied (heap.reach value) heap.size original copy :=
  copied_mapRef value heap (fun _ href => .root href) h

/-- **Copies hold nothing but copies**, and all other containers what they held. -/
theorem child_copyWithOrigins {parent child : Ref}
    (hchild : (value.copyWithOrigins heap).2.Child parent child) :
    parent < heap.size ∧ heap.Child parent child ∨
      heap.size ≤ parent ∧ ∃ ref, Ref.Copied (heap.reach value) heap.size ref child := by
  obtain ⟨part, hpart, href⟩ := hchild
  by_cases hlt : parent < heap.size
  · rw [Heap.children, fetch_copyWithOrigins_of_lt value heap hlt] at hpart
    exact .inl ⟨hlt, part, hpart, href⟩
  · have hle : heap.size ≤ parent := Nat.not_lt.1 hlt
    -- A container that holds something is in the heap, and the new ones are the copies.
    have hparent : parent < heap.size + (heap.reach value).length :=
      size_copyWithOrigins value heap ▸ Heap.lt_size_of_mem_children hpart
    obtain ⟨original, hcopied⟩ := Ref.Copied.exists_of_lt hle hparent
    rw [Heap.children, fetch_copyWithOrigins value heap hcopied,
      Container.children_mapValues] at hpart
    obtain ⟨source, hsource, rfl⟩ := List.mem_map.1 hpart
    refine .inr ⟨hle, copied_mapRef value heap (fun ref href' => ?_) href⟩
    exact .child (Heap.mem_reach_iff.1 hcopied.mem) ⟨source, hsource, href'⟩

end Value

/-! ## Copies of alike values -/

namespace Heap

variable {ref : Ref → Ref → Prop} {left right : Heap}

/-- Through corresponding containers two walks go in step. -/
theorem Agree.walked (h : Agree ref left right) (hunique : Relator.BiUnique ref)
    {seen out : List Ref} {values : List Value} (hwalk : left.Walked seen values out)
    {seen' : List Ref} {values' : List Value} (hseen : List.Forall₂ ref seen seen')
    (hvalues : List.Forall₂ (Value.Alike ref) values values') :
    ∃ out', right.Walked seen' values' out' ∧ List.Forall₂ ref out out' := by
  induction hwalk generalizing seen' values' with
  | nil =>
    cases hvalues
    exact ⟨seen', .nil, hseen⟩
  | scalar hnone _ ih =>
    obtain _ | ⟨halike, hrest⟩ := hvalues
    obtain ⟨out', hwalk', hout⟩ := ih hseen hrest
    exact ⟨out', .scalar (halike.ref?_eq_none hnone) hwalk', hout⟩
  | known hsome hmem _ ih =>
    obtain _ | ⟨halike, hrest⟩ := hvalues
    obtain ⟨s, hsome', hrs⟩ := halike.exists_of_ref? hsome
    obtain ⟨out', hwalk', hout⟩ := ih hseen hrest
    exact ⟨out', .known hsome' ((List.rel_mem hunique hrs hseen).1 hmem) hwalk', hout⟩
  | new hsome hmem _ _ ih₁ ih₂ =>
    obtain _ | ⟨halike, hrest⟩ := hvalues
    obtain ⟨s, hsome', hrs⟩ := halike.exists_of_ref? hsome
    -- First down into the container, then on with what has been seen below it.
    obtain ⟨below', hwalk₁, hbelow⟩ := ih₁ (.cons hrs hseen) (h _ _ hrs).children
    obtain ⟨out', hwalk₂, hout⟩ := ih₂ hbelow hrest
    have hmem' : s ∉ seen' := fun hs => hmem ((List.rel_mem hunique hrs hseen).2 hs)
    exact ⟨out', .new hsome' hmem' hwalk₁ hwalk₂, hout⟩

/-- **Alike values have corresponding containers, in the same order.** -/
theorem Agree.reach (h : Agree ref left right) (hunique : Relator.BiUnique ref) {v w : Value}
    (hvw : Value.Alike ref v w) : List.Forall₂ ref (left.reach v) (right.reach w) := by
  obtain ⟨out, hwalk, hout⟩ :=
    h.walked hunique (walked_reach left v) .nil (.cons hvw .nil)
  rw [hwalk.unique (walked_reach right w)] at hout
  simpa using List.rel_reverse hout

/-- Corresponding containers are renamed to corresponding places, if the places that the
copies take correspond. -/
theorem rel_renameTo (hunique : Relator.BiUnique ref) {xs ys : List Ref}
    (hxs : List.Forall₂ ref xs ys) {base base' : Nat}
    (hfresh : ∀ i, i < xs.length → ref (base + i) (base' + i)) {r s : Ref} (hrs : ref r s) :
    ref (Ref.renameTo xs base r) (Ref.renameTo ys base' s) := by
  -- Since pairs are one to one, they are at the same place in both lists or in neither.
  have hidx : xs.idxOf? r = ys.idxOf? s := by
    clear hfresh
    induction hxs with
    | nil => rfl
    | cons hxy _ ih =>
      simp only [List.idxOf?_cons, ih, beq_iff_eq, Relator.rel_eq hunique hxy hrs]
  unfold Ref.renameTo
  rw [← hidx]
  cases hx : xs.idxOf? r with
  | none => exact hrs
  | some i =>
    obtain ⟨hlt, -, -⟩ := List.idxOf?_eq_some_iff.1 hx
    exact hfresh i hlt

end Heap

end Conform
