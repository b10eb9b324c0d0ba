import Conform.Proofs.Value.Copy
import Conform.Proofs.Value.Entries
import Conform.Proofs.Value.Planted

/-!
# Heaps that gain containers

A container holds another at a place, which a step leads to.  As a heap is worked on, places
come to hold what they held before or containers that are new; so what was there before is
found at no place but where it was, and a value leads to what it led to and to what is new.

The containers that are made for a document hold one another in the order in which they were
made, each at one place and none before it was there.

## Main definitions

* `Heap.Place`, `Heap.put`: the places of a container, and putting a value there.
* `Heap.Gains`: a heap whose places hold what they held, or what is new.
* `Heap.Sown`: new containers, each at one place at most.
* `Heap.Renews`: a value, a scalar, or what is new.

## Main results

* `Heap.Gains.trans`, `Heap.Gains.put`, `Heap.Gains.copy`: how heaps gain.
* `Heap.Gains.reachable`: what a value leads to in a heap that has gained.
* `Heap.path_copyWithOrigins`: paths in a copy are paths in the original.
* `Heap.sown_ofJson`: the containers of a document are sown.
-/

namespace Conform

/-- What is found after a value has been put somewhere: there the value, and elsewhere what was
there before. -/
theorem Container.part?_put_cases {container : Container} {accessor other : Accessor}
    {value part : Value} (h : (container.put accessor value).part? other = some part) :
    other = accessor ∧ part = value ∨ container.part? other = some part := by
  rcases container with items | fields
  · rcases accessor with name | i
    · exact .inr h
    · rcases other with name | j
      · cases h
      · have hset : (items.set i value)[j]? = some part := h
        by_cases hij : i = j
        · subst hij
          obtain ⟨hlt, rfl⟩ := List.getElem?_eq_some_iff.1 hset
          exact .inl ⟨rfl, List.getElem_set_self _⟩
        · rw [List.getElem?_set_ne hij] at hset
          exact .inr hset
  · rcases accessor with name | i
    · rcases other with other | j
      · have hget : (fields.insert name value).get? other = some part := h
        rw [OrderedMap.get?_insert] at hget
        split at hget
        · next heq => exact .inl ⟨congrArg _ heq.symm, (Option.some.inj hget).symm⟩
        · exact .inr hget
      · cases h
    · exact .inr h

theorem Container.part?_mapValues (f : Value → Value) (container : Container)
    (accessor : Accessor) :
    (container.mapValues f).part? accessor = (container.part? accessor).map f := by
  rcases container with items | fields
  · rcases accessor with name | i
    · rfl
    · exact List.getElem?_map ..
  · rcases accessor with name | i
    · exact Entries.get?_mapValues f fields.entries name
    · rfl

theorem Value.ref?_mapRef (f : Ref → Ref) (value : Value) :
    (value.mapRef f).ref? = value.ref?.map f := by
  cases value <;> rfl

/-- The container behind a copied value is the copy of the one behind the value. -/
theorem Value.root_copyWithOrigins (value : Value) (heap : Heap) (root' : Ref)
    (h : (value.copyWithOrigins heap).1.1.ref? = some root') :
    ∃ root, Ref.Copied (heap.reach value) heap.size root root' ∧ value.ref? = some root := by
  rw [copyWithOrigins_fst, ref?_mapRef] at h
  obtain ⟨root, hroot, rfl⟩ := Option.map_eq_some_iff.1 h
  exact ⟨root, Ref.copied_renameTo (Heap.mem_reach_iff.2 (.root hroot)), hroot⟩

namespace Heap

variable {base heap later : Heap} {value part result : Value} {parent child ref : Ref}
  {accessor other : Accessor}

/-! ## Places -/

/-- A container holds another at the place that a step leads to. -/
def Place (heap : Heap) (parent : Ref) (accessor : Accessor) (child : Ref) : Prop :=
  ∃ part, (heap.fetch parent).part? accessor = some part ∧ part.ref? = some child

theorem child_iff_place :
    heap.Child parent child ↔ ∃ accessor, heap.Place parent accessor child := by
  constructor
  · rintro ⟨part, hpart, href⟩
    obtain ⟨accessor, haccessor⟩ := Container.mem_children_iff.1 hpart
    exact ⟨accessor, part, haccessor, href⟩
  · rintro ⟨accessor, part, haccessor, href⟩
    exact ⟨part, Container.mem_children_iff.2 ⟨accessor, haccessor⟩, href⟩

theorem Place.to_child (h : heap.Place parent accessor child) : heap.Child parent child :=
  child_iff_place.2 ⟨accessor, h⟩

/-- Only containers of the heap have places. -/
theorem Place.lt (h : heap.Place parent accessor child) : parent < heap.size := by
  obtain ⟨part, hpart, -⟩ := h.to_child
  exact lt_size_of_mem_children hpart

theorem place_of_fetch_eq (h : later.fetch parent = heap.fetch parent) :
    later.Place parent accessor child ↔ heap.Place parent accessor child := by
  unfold Place
  rw [h]

theorem place_of_step? (hstep : heap.step? value accessor = some part)
    (hvalue : value.ref? = some parent) (hpart : part.ref? = some child) :
    heap.Place parent accessor child :=
  ⟨part, part?_of_step? hstep hvalue, hpart⟩

/-- Puts a value at a place of a container, if the container has the place. -/
def put (heap : Heap) (ref : Ref) (accessor : Accessor) (value : Value) : Heap :=
  heap.store ref ((heap.fetch ref).put accessor value)

theorem insertField_eq_put (name : String) :
    heap.insertField ref name value = heap.put ref (.key name) value := by
  rw [insertField_eq_store, Container.mapFields_insert, put]

theorem setItem_eq_put (i : Nat) : heap.setItem ref i value = heap.put ref (.index i) value := by
  rw [setItem_eq_store, Container.mapItems_set, put]

@[simp] theorem size_put : (heap.put ref accessor value).size = heap.size := size_store ..

theorem fetch_put_of_ne (h : ref ≠ parent) :
    (heap.put ref accessor value).fetch parent = heap.fetch parent :=
  fetch_store_of_ne heap _ h

/-- **After a value has been put at a place**, all others hold what they held. -/
theorem place_put (h : (heap.put ref accessor value).Place parent other child) :
    heap.Place parent other child ∨
      parent = ref ∧ other = accessor ∧ value.ref? = some child := by
  by_cases heq : ref = parent
  · subst heq
    obtain ⟨part, hpart, href⟩ := h
    rw [put, fetch_store] at hpart
    split at hpart
    · rcases Container.part?_put_cases hpart with ⟨rfl, rfl⟩ | hpart
      · exact .inr ⟨rfl, rfl, href⟩
      · exact .inl ⟨part, hpart, href⟩
    · exact .inl ⟨part, hpart, href⟩
  · exact .inl ((place_of_fetch_eq (fetch_put_of_ne heq)).1 h)

/-- What is reached after a value has been put at a place was reached before, or from the
value. -/
theorem reachable_put {start : Value} (h : (heap.put ref accessor value).Reachable start child) :
    heap.Reachable start child ∨ heap.Reachable value child := by
  induction h with
  | root hroot => exact .inl (.root hroot)
  | child _ hchild ih =>
    obtain ⟨other, hplace⟩ := child_iff_place.1 hchild
    rcases place_put hplace with hplace | ⟨-, -, href⟩
    · exact ih.imp (.child · hplace.to_child) (.child · hplace.to_child)
    · exact .inr (.root href)

/-- What a value leads to hangs on the container behind it. -/
theorem Reachable.of_ref?_eq {v w : Value} (heq : v.ref? = w.ref?) (h : heap.Reachable v ref) :
    heap.Reachable w ref := by
  induction h with
  | root hroot => exact .root (heq ▸ hroot)
  | child _ hchild ih => exact .child ih hchild

/-! ## Gains -/

/-- Every place holds what it held, or a container that is new. -/
structure Gains (base heap : Heap) : Prop where
  size_le : base.size ≤ heap.size
  place : ∀ {parent : Ref} {accessor : Accessor} {child : Ref},
    heap.Place parent accessor child →
      base.Place parent accessor child ∨ base.size ≤ child ∧ child < heap.size

namespace Gains

theorem refl (heap : Heap) : heap.Gains heap := ⟨Nat.le_refl _, .inl⟩

theorem trans (h : base.Gains heap) (h' : heap.Gains later) : base.Gains later := by
  refine ⟨Nat.le_trans h.size_le h'.size_le, fun hplace => ?_⟩
  rcases h'.place hplace with hplace | ⟨hle, hlt⟩
  · exact (h.place hplace).imp_right fun hnew => ⟨hnew.1, Nat.lt_of_lt_of_le hnew.2 h'.size_le⟩
  · exact .inr ⟨Nat.le_trans h.size_le hle, hlt⟩

theorem child_cases (h : base.Gains heap) (hchild : heap.Child parent child) :
    base.Child parent child ∨ base.size ≤ child ∧ child < heap.size := by
  obtain ⟨accessor, hplace⟩ := child_iff_place.1 hchild
  exact (h.place hplace).imp_left Place.to_child

/-- New containers hold new ones alone. -/
theorem new_of_child (h : base.Gains heap) (hnew : base.size ≤ parent)
    (hchild : heap.Child parent child) : base.size ≤ child ∧ child < heap.size := by
  refine (h.child_cases hchild).resolve_left ?_
  rintro ⟨part, hpart, -⟩
  exact Nat.not_le.2 (lt_size_of_mem_children hpart) hnew

/-- **A value leads to what it led to, and to what is new.** -/
theorem reachable (h : base.Gains heap) (hreach : heap.Reachable value ref) :
    base.Reachable value ref ∨ base.size ≤ ref ∧ ref < heap.size := by
  induction hreach with
  | root hroot => exact .inl (.root hroot)
  | child _ hchild ih =>
    rcases ih with hold | ⟨hnew, -⟩
    · exact (h.child_cases hchild).imp_left hold.child
    · exact .inr (h.new_of_child hnew hchild)

theorem reachable_of_lt (h : base.Gains heap) (hreach : heap.Reachable value ref)
    (hlt : ref < base.size) : base.Reachable value ref :=
  (h.reachable hreach).resolve_right fun hnew => Nat.not_lt.2 hnew.1 hlt

/-- What is new leads to what is new. -/
theorem new_of_reachable (h : base.Gains heap)
    (hnew : ∀ root, value.ref? = some root → base.size ≤ root ∧ root < heap.size)
    (hreach : heap.Reachable value ref) : base.size ≤ ref ∧ ref < heap.size := by
  induction hreach with
  | root hroot => exact hnew _ hroot
  | child _ hchild ih => exact h.new_of_child ih.1 hchild

theorem holds (h : base.Gains heap) (hvalue : base.Holds value) : heap.Holds value := by
  intro ref hreach
  rcases h.reachable hreach with hold | ⟨-, hlt⟩
  · exact Nat.lt_of_lt_of_le (hvalue ref hold) h.size_le
  · exact hlt

/-- What stood at a place, or is new, may be put there. -/
theorem put (h : base.Gains heap)
    (hvalue : ∀ child, value.ref? = some child →
      base.Place ref accessor child ∨ base.size ≤ child ∧ child < heap.size) :
    base.Gains (heap.put ref accessor value) := by
  refine ⟨by rw [size_put]; exact h.size_le, fun {parent other child} hplace => ?_⟩
  rw [size_put]
  rcases place_put hplace with hplace | ⟨rfl, rfl, href⟩
  · exact h.place hplace
  · exact hvalue child href

/-- A copy is new. -/
theorem copy (heap : Heap) (value : Value) : heap.Gains (value.copyWithOrigins heap).2 := by
  refine ⟨?_, fun {parent accessor child} hplace => ?_⟩
  · rw [Value.size_copyWithOrigins]
    exact Nat.le_add_right _ _
  · rcases value.child_copyWithOrigins heap hplace.to_child with ⟨hlt, -⟩ | ⟨-, _, hcopied⟩
    · exact .inl ((place_of_fetch_eq (value.fetch_copyWithOrigins_of_lt heap hlt)).1 hplace)
    · rw [Value.size_copyWithOrigins]
      exact .inr ⟨hcopied.le, hcopied.lt⟩

end Gains

/-! ## Copies -/

section Copies

variable {original copy : Ref} {start start' : Value}

/-- What stands at a place of a copy is the copy of what stands there in the original. -/
theorem part?_copyWithOrigins (hcopied : Ref.Copied (heap.reach value) heap.size original copy)
    (hpart : ((value.copyWithOrigins heap).2.fetch copy).part? accessor = some part) :
    ∃ source, (heap.fetch original).part? accessor = some source ∧
      ∀ root', part.ref? = some root' → ∃ root,
        Ref.Copied (heap.reach value) heap.size root root' ∧ source.ref? = some root := by
  rw [value.fetch_copyWithOrigins heap hcopied, Container.part?_mapValues] at hpart
  obtain ⟨source, hsource, rfl⟩ := Option.map_eq_some_iff.1 hpart
  refine ⟨source, hsource, fun root' hroot' => ?_⟩
  rw [Value.ref?_mapRef] at hroot'
  obtain ⟨root, hroot, rfl⟩ := Option.map_eq_some_iff.1 hroot'
  have hplace : heap.Place original accessor root := ⟨source, hsource, hroot⟩
  have hreach := (mem_reach_iff.1 hcopied.mem).child hplace.to_child
  exact ⟨root, Ref.copied_renameTo (mem_reach_iff.2 hreach), hroot⟩

theorem place_copyWithOrigins (hcopied : Ref.Copied (heap.reach value) heap.size original copy)
    (hplace : (value.copyWithOrigins heap).2.Place copy accessor child) :
    ∃ ref, Ref.Copied (heap.reach value) heap.size ref child ∧
      heap.Place original accessor ref := by
  obtain ⟨part, hpart, hchild⟩ := hplace
  obtain ⟨source, hsource, hroots⟩ := part?_copyWithOrigins hcopied hpart
  obtain ⟨ref, hcopied', href⟩ := hroots child hchild
  exact ⟨ref, hcopied', source, hsource, href⟩

/-- **Paths in a copy** are paths in the original. -/
theorem path_copyWithOrigins {path : List Accessor}
    (hpath : (value.copyWithOrigins heap).2.Path start' path copy)
    (hstart : ∀ root', start'.ref? = some root' → ∃ root,
      Ref.Copied (heap.reach value) heap.size root root' ∧ start.ref? = some root) :
    ∃ original, Ref.Copied (heap.reach value) heap.size original copy ∧
      heap.Path start path original := by
  induction hpath generalizing start with
  | here href =>
    obtain ⟨root, hcopied, hroot⟩ := hstart _ href
    exact ⟨root, hcopied, .here hroot⟩
  | step href hpart _ ih =>
    obtain ⟨root, hcopied, hroot⟩ := hstart _ href
    obtain ⟨source, hsource, hroots⟩ := part?_copyWithOrigins hcopied hpart
    obtain ⟨original, horiginal, hrest⟩ := ih hroots
    exact ⟨original, horiginal, .step hroot hsource hrest⟩

/-- A copy of a value leads to copies of what the value leads to. -/
theorem reachable_copyWithOrigins
    (hreach : (value.copyWithOrigins heap).2.Reachable (value.copyWithOrigins heap).1.1 copy) :
    ∃ original, Ref.Copied (heap.reach value) heap.size original copy ∧
      heap.Reachable value original := by
  obtain ⟨path, hpath⟩ := exists_path_of_reachable hreach
  obtain ⟨original, hcopied, -⟩ := path_copyWithOrigins hpath (value.root_copyWithOrigins heap)
  exact ⟨original, hcopied, mem_reach_iff.1 hcopied.mem⟩

/-- A copy is held, whatever it is a copy of. -/
theorem holds_copyWithOrigins (value : Value) (heap : Heap) :
    (value.copyWithOrigins heap).2.Holds (value.copyWithOrigins heap).1.1 := by
  intro copy hreach
  obtain ⟨original, hcopied, -⟩ := reachable_copyWithOrigins hreach
  rw [Value.size_copyWithOrigins]
  exact hcopied.lt

end Copies

/-! ## Documents -/

/-- Since `base` there are new containers, which hold older ones of the new, each at one place
at most, and the values are new and stand at none. -/
structure Sown (base heap : Heap) (values : List Value) : Prop where
  extends_base : base.Extends heap
  place : ∀ {parent : Ref} {accessor : Accessor} {child : Ref}, base.size ≤ parent →
    heap.Place parent accessor child → base.size ≤ child ∧ child < parent
  unique : ∀ {parent parent' : Ref} {accessor accessor' : Accessor} {child : Ref},
    base.size ≤ parent → base.size ≤ parent' → heap.Place parent accessor child →
    heap.Place parent' accessor' child → parent = parent' ∧ accessor = accessor'
  roots : ∀ value ∈ values, ∀ root, value.ref? = some root →
    base.size ≤ root ∧ root < heap.size ∧
      ∀ parent accessor, base.size ≤ parent → ¬ heap.Place parent accessor root
  apart : values.Pairwise fun v w => ∀ root, v.ref? = some root → w.ref? ≠ some root

namespace Sown

variable {values : List Value}

/-- Where nothing is new, scalars are sown. -/
theorem scalars (h : ∀ value ∈ values, value.ref? = none) : Sown heap heap values where
  extends_base := .refl heap
  place := fun hle hplace => absurd hplace.lt (Nat.not_lt.2 hle)
  unique := fun hle _ hplace _ => absurd hplace.lt (Nat.not_lt.2 hle)
  roots := by
    intro value hmem root hroot
    rw [h value hmem] at hroot
    cases hroot
  apart := by
    refine List.pairwise_of_forall_mem_list fun v hv w _ root hroot => ?_
    rw [h v hv] at hroot
    cases hroot

/-- Values sown one after the other. -/
theorem append {more : List Value} (h : Sown base heap values) (h' : Sown heap later more) :
    Sown base later (values ++ more) := by
  have hsize := h.extends_base.size_le
  -- What was sown first has stayed as it was.
  have hold : ∀ {parent accessor child}, parent < heap.size →
      later.Place parent accessor child → heap.Place parent accessor child :=
    fun hlt => (place_of_fetch_eq (h'.extends_base.fetch_eq _ hlt)).1
  have hnew : ∀ {parent accessor child}, base.size ≤ parent →
      later.Place parent accessor child →
      heap.Place parent accessor child ∧ child < heap.size ∨
        heap.size ≤ parent ∧ heap.size ≤ child := by
    intro parent accessor child hle hplace
    by_cases hlt : parent < heap.size
    · exact .inl ⟨hold hlt hplace, Nat.lt_trans (h.place hle (hold hlt hplace)).2 hlt⟩
    · exact .inr ⟨Nat.not_lt.1 hlt, (h'.place (Nat.not_lt.1 hlt) hplace).1⟩
  refine
    { extends_base := h.extends_base.trans h'.extends_base
      place := fun {parent accessor child} hle hplace => ?_
      unique := fun {parent parent' accessor accessor' child} hle hle' hplace hplace' => ?_
      roots := fun value hmem root hroot => ?_
      apart := List.pairwise_append.2 ⟨h.apart, h'.apart, fun v hv w hw root hroot hroot' => ?_⟩ }
  · by_cases hlt : parent < heap.size
    · exact h.place hle (hold hlt hplace)
    · obtain ⟨hle', hlt'⟩ := h'.place (Nat.not_lt.1 hlt) hplace
      exact ⟨Nat.le_trans hsize hle', hlt'⟩
  · rcases hnew hle hplace with ⟨hfirst, hlt⟩ | ⟨hlater, hge⟩
    · rcases hnew hle' hplace' with ⟨hfirst', -⟩ | ⟨-, hge'⟩
      · exact h.unique hle hle' hfirst hfirst'
      · exact absurd hlt (Nat.not_lt.2 hge')
    · rcases hnew hle' hplace' with ⟨-, hlt'⟩ | ⟨hlater', -⟩
      · exact absurd hlt' (Nat.not_lt.2 hge)
      · exact h'.unique hlater hlater' hplace hplace'
  · rcases List.mem_append.1 hmem with hmem | hmem
    · obtain ⟨hle, hlt, hfree⟩ := h.roots value hmem root hroot
      refine ⟨hle, Nat.lt_of_lt_of_le hlt h'.extends_base.size_le, fun parent accessor hparent =>
        fun hplace => ?_⟩
      rcases hnew hparent hplace with ⟨hfirst, -⟩ | ⟨-, hge⟩
      · exact hfree parent accessor hparent hfirst
      · exact Nat.not_le.2 hlt hge
    · obtain ⟨hle, hlt, hfree⟩ := h'.roots value hmem root hroot
      refine ⟨Nat.le_trans hsize hle, hlt, fun parent accessor hparent hplace => ?_⟩
      rcases hnew hparent hplace with ⟨-, hless⟩ | ⟨hlater, -⟩
      · exact Nat.not_lt.2 hle hless
      · exact hfree parent accessor hlater hplace
  · exact Nat.not_le.2 (h.roots v hv root hroot).2.1 (h'.roots w hw root hroot').1

/-- A new container of what has been sown. -/
theorem allocate {contents : Container} (h : Sown base heap values)
    (hmem : ∀ part ∈ contents.children, part ∈ values)
    (honce : ∀ {a b v w root}, contents.part? a = some v → contents.part? b = some w →
      v.ref? = some root → w.ref? = some root → a = b)
    (hvalue : value.ref? = some heap.size) :
    Sown base (allocate contents heap).2 [value] := by
  have hsize := h.extends_base.size_le
  have hplaces : ∀ {parent accessor child},
      (Heap.allocate contents heap).2.Place parent accessor child →
      parent < heap.size ∧ heap.Place parent accessor child ∨
        parent = heap.size ∧ ∃ part ∈ values, contents.part? accessor = some part ∧
          part.ref? = some child := by
    intro parent accessor child hplace
    obtain ⟨part, hpart, href⟩ := hplace
    rw [fetch_allocate] at hpart
    split at hpart
    · next heq =>
      exact .inr ⟨heq, part, hmem part (Container.mem_children_iff.2 ⟨accessor, hpart⟩),
        hpart, href⟩
    · have hold : heap.Place parent accessor child := ⟨part, hpart, href⟩
      exact .inl ⟨hold.lt, hold⟩
  refine
    { extends_base := h.extends_base.trans (.allocate heap contents)
      place := fun {parent accessor child} hle hplace => ?_
      unique := fun {parent parent' accessor accessor' child} hle hle' hplace hplace' => ?_
      roots := fun v hv root hroot => ?_
      apart := List.pairwise_singleton _ _ }
  · rcases hplaces hplace with ⟨-, hold⟩ | ⟨rfl, part, hpart, -, href⟩
    · exact h.place hle hold
    · obtain ⟨hroot, hlt, -⟩ := h.roots part hpart child href
      exact ⟨hroot, hlt⟩
  · rcases hplaces hplace with ⟨-, hold⟩ | ⟨rfl, v, hv, hpart, href⟩
    · rcases hplaces hplace' with ⟨-, hold'⟩ | ⟨rfl, w, hw, -, href'⟩
      · exact h.unique hle hle' hold hold'
      · exact absurd hold ((h.roots w hw child href').2.2 _ _ hle)
    · rcases hplaces hplace' with ⟨-, hold'⟩ | ⟨rfl, w, hw, hpart', href'⟩
      · exact absurd hold' ((h.roots v hv child href).2.2 _ _ hle')
      · exact ⟨rfl, honce hpart hpart' href href'⟩
  · obtain rfl := List.mem_singleton.1 hv
    obtain rfl := Option.some.inj (hvalue.symm.trans hroot)
    rw [size_allocate]
    refine ⟨hsize, Nat.lt_succ_self _, fun parent accessor hle hplace => ?_⟩
    rcases hplaces hplace with ⟨hlt, hold⟩ | ⟨rfl, part, hpart, -, href⟩
    · exact Nat.lt_asymm hlt (h.place hle hold).2
    · exact Nat.lt_irrefl _ (h.roots part hpart _ href).2.1

end Sown

/-- Of values that are apart, no two positions hold one container. -/
theorem eq_of_pairwise_apart {values : List Value}
    (h : values.Pairwise fun v w => ∀ root, v.ref? = some root → w.ref? ≠ some root) {i j : Nat}
    {v w : Value} {root : Ref} (hi : values[i]? = some v) (hj : values[j]? = some w)
    (hv : v.ref? = some root) (hw : w.ref? = some root) : i = j := by
  obtain ⟨hlti, rfl⟩ := List.getElem?_eq_some_iff.1 hi
  obtain ⟨hltj, rfl⟩ := List.getElem?_eq_some_iff.1 hj
  rcases Nat.lt_trichotomy i j with hlt | heq | hlt
  · exact absurd hw (List.pairwise_iff_getElem.1 h i j hlti hltj hlt root hv)
  · exact heq
  · exact absurd hv (List.pairwise_iff_getElem.1 h j i hltj hlti hlt root hw)

mutual

/-- **The containers of a document are sown.** -/
theorem sown_ofJson (json : Json) (heap : Heap) :
    Sown heap (Value.ofJson json heap).2 [(Value.ofJson json heap).1] := by
  cases json with
  | array items =>
    have hitems := sown_ofItems items heap
    refine hitems.allocate (fun part hpart => hpart) (fun {a b v w root} ha hb hv hw => ?_) rfl
    rcases a with _ | i
    · cases ha
    · rcases b with _ | j
      · cases hb
      · exact congrArg Accessor.index (eq_of_pairwise_apart hitems.apart ha hb hv hw)
  | object members =>
    have hmembers := sown_ofMembers members heap
    refine hmembers.allocate (fun part hpart => ?_) (fun {a b v w root} ha hb hv hw => ?_) rfl
    · obtain ⟨accessor, hpart⟩ := Container.mem_children_iff.1 hpart
      obtain ⟨name, -, hpair⟩ := Container.mem_of_part?_ofList hpart
      exact List.mem_map_of_mem hpair
    · obtain ⟨name, rfl, hpair⟩ := Container.mem_of_part?_ofList ha
      obtain ⟨name', rfl, hpair'⟩ := Container.mem_of_part?_ofList hb
      obtain ⟨i, hi⟩ := List.mem_iff_getElem?.1 hpair
      obtain ⟨j, hj⟩ := List.mem_iff_getElem?.1 hpair'
      have hij : i = j := eq_of_pairwise_apart hmembers.apart
        (by rw [List.getElem?_map, hi]; rfl) (by rw [List.getElem?_map, hj]; rfl) hv hw
      subst hij
      exact congrArg (Accessor.key ·.1) (Option.some.inj (hi.symm.trans hj))
  | _ => exact .scalars fun value hmem => by obtain rfl := List.mem_singleton.1 hmem; rfl

theorem sown_ofItems (items : List Json) (heap : Heap) :
    Sown heap (Value.ofItems items heap).2 (Value.ofItems items heap).1 := by
  cases items with
  | nil => exact .scalars nofun
  | cons item rest =>
    exact (sown_ofJson item heap).append (sown_ofItems rest (Value.ofJson item heap).2)

theorem sown_ofMembers (members : List (String × Json)) (heap : Heap) :
    Sown heap (Value.ofMembers members heap).2
      ((Value.ofMembers members heap).1.map Prod.snd) := by
  cases members with
  | nil => exact .scalars nofun
  | cons member rest =>
    obtain ⟨name, json⟩ := member
    exact (sown_ofJson json heap).append (sown_ofMembers rest (Value.ofJson json heap).2)

end

/-- The contents of a document are new. -/
theorem Gains.ofJson (json : Json) (heap : Heap) : heap.Gains (Value.ofJson json heap).2 := by
  have hsown := sown_ofJson json heap
  refine ⟨hsown.extends_base.size_le, fun {parent accessor child} hplace => ?_⟩
  by_cases hlt : parent < heap.size
  · exact .inl ((place_of_fetch_eq (hsown.extends_base.fetch_eq parent hlt)).1 hplace)
  · obtain ⟨hle, hless⟩ := hsown.place (Nat.not_lt.1 hlt) hplace
    exact .inr ⟨hle, Nat.lt_trans hless hplace.lt⟩

/-! ## What comes of a value -/

/-- What comes of a value: the value itself, a scalar, or what is new. -/
inductive Renews (base heap : Heap) (value : Value) : Value → Prop where
  | same : Renews base heap value value
  | scalar {result : Value} : result.ref? = none → Renews base heap value result
  | new {result : Value} {ref : Ref} : result.ref? = some ref → base.size ≤ ref →
      ref < heap.size → Renews base heap value result

/-- It leads to what the value led to, and to what is new. -/
theorem Renews.reachable (h : base.Renews heap value result) (hgains : base.Gains heap)
    (hreach : heap.Reachable result ref) :
    base.Reachable value ref ∨ base.size ≤ ref ∧ ref < heap.size := by
  rcases h with _ | hnone | ⟨hroot, hle, hlt⟩
  · exact hgains.reachable hreach
  · exact absurd hreach (not_reachable_of_ref?_none hnone ref)
  · refine .inr (hgains.new_of_reachable (fun root heq => ?_) hreach)
    obtain rfl := Option.some.inj (hroot.symm.trans heq)
    exact ⟨hle, hlt⟩

theorem Renews.trans {u v w : Value} (h : base.Renews heap u v) (h' : heap.Renews later v w)
    (hle : base.size ≤ heap.size) (hle' : heap.size ≤ later.size) : base.Renews later u w := by
  rcases h' with _ | hnone | ⟨hroot, hnew, hlt⟩
  · rcases h with _ | hnone | ⟨hroot, hnew, hlt⟩
    · exact .same
    · exact .scalar hnone
    · exact .new hroot hnew (Nat.lt_of_lt_of_le hlt hle')
  · exact .scalar hnone
  · exact .new hroot (Nat.le_trans hle hnew) hlt

/-- What comes of a document is new, or a scalar. -/
theorem Renews.ofJson (json : Json) (heap : Heap) (value : Value) :
    heap.Renews (Value.ofJson json heap).2 value (Value.ofJson json heap).1 := by
  cases hroot : (Value.ofJson json heap).1.ref? with
  | none => exact .scalar hroot
  | some root =>
    obtain ⟨hle, hlt, -⟩ := (sown_ofJson json heap).roots _ (List.mem_singleton_self _) root hroot
    exact .new hroot hle hlt

/-- What comes of a part may be put where the part stood: it stood there or is new. -/
theorem Renews.place_or_new {accessor : Accessor} {now : Heap} {child : Ref}
    (h : now.Renews later (heap.get value accessor) result) (href : value.ref? = some ref)
    (hchild : result.ref? = some child) :
    heap.Place ref accessor child ∨ now.size ≤ child ∧ child < later.size := by
  rcases h with _ | hnone | ⟨hroot, hnew, hlt⟩
  · unfold get at hchild
    cases hstep : heap.step? value accessor with
    | none =>
      rw [hstep] at hchild
      cases hchild
    | some part =>
      rw [hstep] at hchild
      exact .inl (place_of_step? hstep href hchild)
  · rw [hnone] at hchild
    cases hchild
  · obtain rfl := Option.some.inj (hroot.symm.trans hchild)
    exact .inr ⟨hnew, hlt⟩

end Heap

end Conform
