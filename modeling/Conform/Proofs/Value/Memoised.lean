import Conform.Proofs.Value.Copy
import Conform.Proofs.Value.Entries

/-!
# Copying depth first

A copy can be made container by container: a container that is met for the first time gets
an empty copy, which is remembered, and then its parts are copied in turn and put into the
copy.  On a cycle the copy of a container is found while it is still being filled.

What has been met can only grow, and a container keeps the place of its copy.  So a part that
is put into a copy is renamed for good, and each copy that has been filled holds what the
original holds, renamed.  At the end all copies have been filled, and the heap is the one
that comes of copying all containers at once.

## Main definitions

* `Copying`: the heap, and the containers met so far with their copies.
* `Copying.copyDown`: copying a value depth first.
* `Copying.Advances`: from one state to a later one.

## Main results

* `Copying.keepsUp`: what copying a value comes to.
* `Value.copyWithOrigins_eq_copyDown`: it is the copy that is made all at once.
-/

namespace Conform

/-! ## Filling a container -/

namespace Container

/-- An empty container of the same kind. -/
def hollow : Container → Container
  | .array _ => .array []
  | .object _ => .object .empty

/-- The values held, each with its key if it has one. -/
def slots : Container → List (Option String × Value)
  | .array items => items.map fun item => (none, item)
  | .object fields => fields.entries.map fun field => (some field.1, field.2)

/-- Adds an item to an array, or a field to an object. -/
def add : Container → Option String → Value → Container
  | .array items, none, part => .array (items ++ [part])
  | .object fields, some name, part => .object (fields.insert name part)
  | container, _, _ => container

theorem map_snd_slots (container : Container) :
    container.slots.map Prod.snd = container.children := by
  cases container <;> simp [slots, children, Function.comp_def]

theorem foldl_add_array (f : Value → Value) (front items : List Value) :
    (items.map fun item => (none, item)).foldl
        (fun (filled : Container) slot => filled.add slot.1 (f slot.2)) (.array front) =
      .array (front ++ items.map f) := by
  induction items generalizing front with
  | nil => simp
  | cons item rest ih =>
    refine (ih (front ++ [f item])).trans ?_
    simp

theorem foldl_add_object (f : Value → Value) (front fields : OrderedMap Value)
    (pairs : Entries Value)
    (h : fields.entries = (Entries.mapValues f pairs).foldl
      (fun entries pair => entries.insert pair.1 pair.2) front.entries) :
    (pairs.map fun pair => (some pair.1, pair.2)).foldl
        (fun (filled : Container) slot => filled.add slot.1 (f slot.2)) (.object front) =
      .object fields := by
  induction pairs generalizing front with
  | nil =>
    obtain ⟨entries, _⟩ := fields
    obtain rfl := h
    rfl
  | cons pair rest ih => exact ih (front.insert pair.1 (f pair.2)) h

/-- **An empty container is filled** with what stands in another. -/
theorem foldl_add (f : Value → Value) (container : Container) :
    container.slots.foldl (fun filled slot => filled.add slot.1 (f slot.2)) container.hollow =
      container.mapValues f := by
  cases container with
  | array items => exact foldl_add_array f [] items
  | object fields =>
    refine foldl_add_object f .empty (fields.mapValues f) fields.entries ?_
    -- All keys are different, so that each field is put behind the others.
    have hnodup : (Entries.mapValues f fields.entries).keys.Nodup := (fields.mapValues f).nodup
    exact (Entries.collect_of_nodup hnodup).symm

theorem mapValues_congr {f g : Value → Value} {container : Container}
    (h : ∀ part ∈ container.children, f part = g part) :
    container.mapValues f = container.mapValues g := by
  cases container with
  | array items => exact congrArg Container.array (List.map_congr_left h)
  | object fields =>
    simp only [mapValues, OrderedMap.mapValues, Container.object.injEq, OrderedMap.mk.injEq]
    exact List.map_congr_left fun field hfield => by rw [h _ (List.mem_map_of_mem hfield)]

end Container

/-! ## Places of copies -/

namespace Ref

variable {met met' : List Ref} {base : Nat} {original copy : Ref}

/-- A container that has been met keeps the place of its copy. -/
theorem renameTo_of_prefix (hextends : met <+: met') (h : original ∈ met) :
    renameTo met' base original = renameTo met base original := by
  obtain ⟨more, rfl⟩ := hextends
  cases hidx : met.idxOf? original with
  | none => exact absurd h (List.idxOf?_eq_none_iff.1 hidx)
  | some i =>
    have hidx' : (met ++ more).idxOf? original = some i := by
      unfold List.idxOf? at hidx ⊢
      simp [List.findIdx?_append, hidx]
    simp [renameTo, hidx, hidx']

/-- The copy of a container that has just been met takes the next place. -/
theorem renameTo_concat (h : original ∉ met) :
    renameTo (met ++ [original]) base original = base + met.length := by
  have hidx : (met ++ [original]).idxOf? original = some met.length := by
    have hnone := List.idxOf?_eq_none_iff.2 h
    unfold List.idxOf? at hnone ⊢
    simp [List.findIdx?_append, hnone]
  simp [renameTo, hidx]

theorem Copied.of_prefix (hextends : met <+: met') (h : Copied met' base original copy)
    (hlt : copy < base + met.length) : Copied met base original copy := by
  obtain ⟨i, hi, rfl⟩ := h
  have hi' : i < met.length := Nat.lt_of_add_lt_add_left hlt
  obtain ⟨more, rfl⟩ := hextends
  exact ⟨i, by rwa [List.getElem?_append_left hi'] at hi, rfl⟩

end Ref

namespace Value

theorem mapRef_congr {f g : Ref → Ref} {value : Value}
    (h : ∀ ref, value.ref? = some ref → f ref = g ref) : value.mapRef f = value.mapRef g := by
  cases value with
  | array ref => exact congrArg Value.array (h ref rfl)
  | object ref => exact congrArg Value.object (h ref rfl)
  | _ => rfl

theorem mapRef_of_ref?_none {f : Ref → Ref} {value : Value} (h : value.ref? = none) :
    value.mapRef f = value := by
  cases value with
  | array ref => cases h
  | object ref => cases h
  | _ => rfl

/-- A value whose container has been met is renamed for good. -/
theorem mapRef_renameTo_of_prefix {met met' : List Ref} {base : Nat} {value : Value}
    (hextends : met <+: met') (h : ∀ ref, value.ref? = some ref → ref ∈ met) :
    value.mapRef (Ref.renameTo met' base) = value.mapRef (Ref.renameTo met base) :=
  mapRef_congr fun ref href => Ref.renameTo_of_prefix hextends (h ref href)

end Value

/-- Heaps are the same if the same can be read from them. -/
theorem Heap.ext_of_fetch {heap heap' : Heap} (hfunctions : heap.functions = heap'.functions)
    (hsize : heap.size = heap'.size) (h : ∀ ref < heap.size, heap.fetch ref = heap'.fetch ref) :
    heap = heap' := by
  have hcontainers : heap.containers = heap'.containers := by
    refine Array.ext hsize fun i hi hi' => ?_
    have hfetch := h i hi
    simpa [fetch, Array.getD, hi, hi'] using hfetch
  cases heap
  cases heap'
  simp_all

/-! ## Copying -/

/-- The heap with the copies made so far, and the containers met so far with their copies. -/
structure Copying where
  heap : Heap
  met : List (Ref × Ref) := []

namespace Copying

/-- Copies what stands in a slot of a container and puts it into the copy. -/
def copySlot (recurse : Copying → Value → Value × Copying) (copy : Ref) (copying : Copying)
    (slot : Option String × Value) : Copying :=
  let (part, copying) := recurse copying slot.2
  { copying with heap := copying.heap.store copy ((copying.heap.fetch copy).add slot.1 part) }

/-- Copies a value.  A container that has been met has a copy already; any other is met
before its parts are copied.  The depth bounds how far the copying goes down. -/
def copyDown : Nat → Copying → Value → Value × Copying
  | 0, copying, value => (value, copying)
  | depth + 1, copying, value =>
    match value.ref? with
    | none => (value, copying)
    | some ref =>
      match copying.met.lookup ref with
      | some copy => (value.mapRef fun _ => copy, copying)
      | none =>
        let container := copying.heap.fetch ref
        let (copy, heap) := Heap.allocate container.hollow copying.heap
        (value.mapRef fun _ => copy,
          container.slots.foldl (copySlot (copyDown depth) copy)
            ⟨heap, copying.met ++ [(ref, copy)]⟩)

variable {base : Heap} {met met' met'' : List Ref} {copying before after : Copying} {copy : Ref}

/-- The containers `met` have been met in the heap `base`, and each has a copy. -/
structure Stands (base : Heap) (met : List Ref) (copying : Copying) : Prop where
  met_eq : copying.met = met.zipIdx.map fun place => (place.1, base.size + place.2)
  functions_eq : copying.heap.functions = base.functions
  size_eq : copying.heap.size = base.size + met.length
  fetch_eq : ∀ ref < base.size, copying.heap.fetch ref = base.fetch ref

/-- More containers have been met and their copies filled.  The copies there were before are
as they were, unless one of them is being filled. -/
structure Advances (base : Heap) (filling : Option Ref) (met met' : List Ref)
    (before after : Copying) : Prop where
  extends_met : met <+: met'
  stands : Stands base met' after
  older : ∀ copy < base.size + met.length, filling ≠ some copy →
    after.heap.fetch copy = before.heap.fetch copy
  newer : ∀ original copy, Ref.Copied met' base.size original copy → base.size + met.length ≤ copy →
    (∀ child, base.Child original child → child ∈ met') ∧
      after.heap.fetch copy =
        (base.fetch original).mapValues (Value.mapRef (Ref.renameTo met' base.size))

theorem Stands.lookup_met (h : Stands base met copying) (ref : Ref) :
    copying.met.lookup ref = (met.idxOf? ref).map (base.size + ·) := by
  have hplaces : ∀ (met : List Ref) (first : Nat),
      ((met.zipIdx first).map fun place => (place.1, base.size + place.2)).lookup ref =
        (met.idxOf? ref).map (base.size + first + ·) := by
    intro met
    induction met with
    | nil => intro first; rfl
    | cons other rest ih =>
      intro first
      rw [List.zipIdx_cons, List.map_cons, List.lookup_cons, List.idxOf?_cons]
      by_cases hother : other = ref
      · simp [hother]
      · have hne : (ref == other) = false := by simpa using Ne.symm hother
        simp only [hne, ih, beq_iff_eq, hother, if_false, Option.map_map]
        congr 1
        funext i
        simp only [Function.comp_apply]
        omega
  rw [h.met_eq]
  exact hplaces met 0

namespace Advances

theorem refl (filling : Option Ref) (h : Stands base met copying) :
    Advances base filling met met copying copying where
  extends_met := List.prefix_rfl
  stands := h
  older := fun _ _ _ => rfl
  newer := fun _ _ hcopied hle => absurd hcopied.lt (Nat.not_lt.2 hle)

/-- One after the other, while the same copy is being filled. -/
theorem trans {filling : Option Ref} (h : Advances base filling met met' copying before)
    (h' : Advances base filling met' met'' before after)
    (hfilling : ∀ copy, filling = some copy → copy < base.size + met.length) :
    Advances base filling met met'' copying after where
  extends_met := h.extends_met.trans h'.extends_met
  stands := h'.stands
  older := by
    intro copy hlt hne
    have hlength := Nat.add_le_add_left h.extends_met.length_le base.size
    rw [h'.older copy (Nat.lt_of_lt_of_le hlt hlength) hne, h.older copy hlt hne]
  newer := by
    intro original copy hcopied hle
    by_cases hlt : copy < base.size + met'.length
    · obtain ⟨hclosed, hfetch⟩ := h.newer original copy (hcopied.of_prefix h'.extends_met hlt) hle
      have hne : filling ≠ some copy := fun heq => Nat.not_lt.2 hle (hfilling copy heq)
      refine ⟨fun child hchild => h'.extends_met.subset (hclosed child hchild), ?_⟩
      -- What it holds has been met, and keeps its place.
      rw [h'.older copy hlt hne, hfetch]
      refine Container.mapValues_congr fun part hpart => ?_
      exact (Value.mapRef_renameTo_of_prefix h'.extends_met fun ref href =>
        hclosed ref ⟨part, hpart, href⟩).symm
    · exact h'.newer original copy hcopied (Nat.not_lt.1 hlt)

/-- Something is put into the copy that is being filled. -/
theorem store (h : Advances base none met met' before after) (hle : base.size ≤ copy)
    (hlt : copy < base.size + met.length) (container : Container) :
    Advances base (some copy) met met' before
      { after with heap := after.heap.store copy container } where
  extends_met := h.extends_met
  stands := {
    met_eq := h.stands.met_eq
    functions_eq := h.stands.functions_eq
    size_eq := by simpa using h.stands.size_eq
    fetch_eq := by
      intro ref hold
      have hne : copy ≠ ref := Nat.ne_of_gt (Nat.lt_of_lt_of_le hold hle)
      rw [Heap.fetch_store_of_ne _ _ hne, h.stands.fetch_eq ref hold] }
  older := by
    intro other hother hne
    rw [Heap.fetch_store_of_ne _ _ fun heq => hne (congrArg some heq),
      h.older other hother nofun]
  newer := by
    intro original other hcopied hother
    obtain ⟨hclosed, hfetch⟩ := h.newer original other hcopied hother
    have hne : copy ≠ other := Nat.ne_of_lt (Nat.lt_of_lt_of_le hlt hother)
    exact ⟨hclosed, by rw [Heap.fetch_store_of_ne _ _ hne, hfetch]⟩

end Advances

/-- What copying a value comes to: the value is renamed, and its container has been met. -/
structure Copies (base : Heap) (met met' : List Ref) (before : Copying) (value : Value)
    (result : Value × Copying) : Prop where
  advances : Advances base none met met' before result.2
  value_eq : result.1 = value.mapRef (Ref.renameTo met' base.size)
  mem_met : ∀ ref, value.ref? = some ref → ref ∈ met'

/-- Copying at a depth keeps up with the walk, if the depth exceeds what is left to be met. -/
def KeepsUp (base : Heap) (depth : Nat) : Prop :=
  ∀ (met : List Ref) (copying : Copying) (value : Value),
    (base.unseen met.reverse).card < depth → base.Holds value → Stands base met copying →
    Copies base met (base.walk depth met.reverse value).reverse copying value
      (copyDown depth copying value)

/-- **Slots are copied in turn** and put into the copy that is being filled. -/
theorem advances_copySlots {depth : Nat} (hdown : KeepsUp base depth)
    (slots : List (Option String × Value)) (hholds : ∀ slot ∈ slots, base.Holds slot.2)
    (hcard : (base.unseen met.reverse).card < depth) (hstands : Stands base met copying)
    (hle : base.size ≤ copy) (hlt : copy < base.size + met.length)
    (hmet' : met' = ((slots.map Prod.snd).foldl (base.walk depth) met.reverse).reverse) :
    Advances base (some copy) met met' copying
        (slots.foldl (copySlot (copyDown depth) copy) copying) ∧
      (slots.foldl (copySlot (copyDown depth) copy) copying).heap.fetch copy =
        slots.foldl (fun filled slot => filled.add slot.1
          (slot.2.mapRef (Ref.renameTo met' base.size))) (copying.heap.fetch copy) ∧
      ∀ slot ∈ slots, ∀ ref, slot.2.ref? = some ref → ref ∈ met' := by
  induction slots generalizing met copying with
  | nil =>
    obtain rfl : met' = met := by simpa using hmet'
    exact ⟨.refl _ hstands, rfl, nofun⟩
  | cons slot rest ih =>
    have hfirst := hdown met copying slot.2 hcard (hholds slot (List.mem_cons_self ..)) hstands
    have hput := hfirst.advances.store hle hlt
      (((copyDown depth copying slot.2).2.heap.fetch copy).add slot.1
        (copyDown depth copying slot.2).1)
    generalize hnow : (base.walk depth met.reverse slot.2).reverse = now at hfirst hput
    have hlength := Nat.add_le_add_left hfirst.advances.extends_met.length_le base.size
    have hlt' := Nat.lt_of_lt_of_le hlt hlength
    -- What has been met is not forgotten, so there is as much depth to spare as before.
    have hcard' : (base.unseen now.reverse).card < depth := by
      refine Nat.lt_of_le_of_lt (Finset.card_le_card (Heap.unseen_anti ?_)) hcard
      exact List.reverse_subset.2 (List.subset_reverse.2 hfirst.advances.extends_met.subset)
    obtain ⟨hrest, hfetch, hmem⟩ := ih
      (fun slot hslot => hholds slot (List.mem_cons_of_mem _ hslot)) hcard' hput.stands hlt'
      (by rw [hmet', ← hnow, List.reverse_reverse]; rfl)
    refine ⟨hput.trans hrest ?_, ?_, ?_⟩
    · rintro _ ⟨⟩
      exact hlt
    · refine hfetch.trans ?_
      have hsize : copy < (copyDown depth copying slot.2).2.heap.size := by
        rw [hfirst.advances.stands.size_eq]
        exact hlt'
      rw [Heap.fetch_store_self _ _ hsize, hfirst.advances.older copy hlt nofun, hfirst.value_eq,
        ← Value.mapRef_renameTo_of_prefix hrest.extends_met hfirst.mem_met]
      rfl
    · intro other hother ref href
      rcases List.mem_cons.1 hother with rfl | hother
      · exact hrest.extends_met.subset (hfirst.mem_met ref href)
      · exact hmem other hother ref href

/-- An empty copy is remembered before it is filled. -/
theorem Stands.begin (h : Stands base met copying) (ref : Ref) (container : Container) :
    Stands base (met ++ [ref]) ⟨(Heap.allocate container copying.heap).2,
      copying.met ++ [(ref, base.size + met.length)]⟩ where
  met_eq := by simp [h.met_eq, List.zipIdx_append]
  functions_eq := h.functions_eq
  size_eq := by simp [h.size_eq, Nat.add_assoc]
  fetch_eq := by
    intro other hold
    have hne : other ≠ copying.heap.size := by
      rw [h.size_eq]
      exact Nat.ne_of_lt (Nat.lt_add_right _ hold)
    rw [Heap.fetch_allocate, if_neg hne, h.fetch_eq other hold]

/-- A container that has just been met has its copy when all its slots have been copied. -/
theorem Stands.filled (h : Stands base met copying) {ref : Ref} {last : Copying}
    (hslots : Advances base (some (base.size + met.length)) (met ++ [ref]) met'
      ⟨(Heap.allocate (base.fetch ref).hollow copying.heap).2,
        copying.met ++ [(ref, base.size + met.length)]⟩ last)
    (hclosed : ∀ child, base.Child ref child → child ∈ met')
    (hfetch : last.heap.fetch (base.size + met.length) =
      (base.fetch ref).mapValues (Value.mapRef (Ref.renameTo met' base.size))) :
    Advances base none met met' copying last where
  extends_met := (List.prefix_append met [ref]).trans hslots.extends_met
  stands := hslots.stands
  older := by
    intro copy hlt _
    have hne : some (base.size + met.length) ≠ some copy := by
      rintro ⟨⟩
      exact Nat.lt_irrefl _ hlt
    have hlt' : copy < base.size + (met ++ [ref]).length := by
      simpa [← Nat.add_assoc] using Nat.lt_succ_of_lt hlt
    have hold : copy ≠ copying.heap.size := h.size_eq ▸ Nat.ne_of_lt hlt
    rw [hslots.older copy hlt' hne, Heap.fetch_allocate, if_neg hold]
  newer := by
    intro original copy hcopied hle
    rcases Nat.eq_or_lt_of_le hle with heq | hlt
    · -- The first of the new copies is that of the container itself.
      subst heq
      obtain ⟨i, hi, hplace⟩ := hcopied.of_prefix hslots.extends_met (by simp)
      obtain rfl : met.length = i := Nat.add_left_cancel hplace
      obtain rfl : ref = original := by simpa using hi
      exact ⟨hclosed, hfetch⟩
    · refine hslots.newer original copy hcopied ?_
      simpa [← Nat.add_assoc] using Nat.succ_le_of_lt hlt

/-- A value without a container is copied as it is. -/
theorem Stands.copies_scalar (h : Stands base met copying) {value : Value}
    (href : value.ref? = none) (depth : Nat) :
    Copies base met (base.walk (depth + 1) met.reverse value).reverse copying value
      (copyDown (depth + 1) copying value) := by
  have hwalk : base.walk (depth + 1) met.reverse value = met.reverse := by simp [Heap.walk, href]
  have hdown : copyDown (depth + 1) copying value = (value, copying) := by simp [copyDown, href]
  rw [hwalk, hdown, List.reverse_reverse]
  exact ⟨.refl _ h, (Value.mapRef_of_ref?_none href).symm, by simp [href]⟩

/-- The copy of a container that has been met is found. -/
theorem Stands.copies_met (h : Stands base met copying) {value : Value} {ref : Ref}
    (href : value.ref? = some ref) (hmem : ref ∈ met) (depth : Nat) :
    Copies base met (base.walk (depth + 1) met.reverse value).reverse copying value
      (copyDown (depth + 1) copying value) := by
  have hwalk : base.walk (depth + 1) met.reverse value = met.reverse := by
    simp [Heap.walk, href, hmem]
  have hfound : copying.met.lookup ref = some (Ref.renameTo met base.size ref) := by
    rw [h.lookup_met]
    cases hidx : met.idxOf? ref with
    | none => exact absurd hmem (List.idxOf?_eq_none_iff.1 hidx)
    | some i => simp [Ref.renameTo, hidx]
  have hdown : copyDown (depth + 1) copying value =
      (value.mapRef fun _ => Ref.renameTo met base.size ref, copying) := by
    simp [copyDown, href, hfound]
  rw [hwalk, hdown, List.reverse_reverse]
  refine ⟨.refl _ h, Value.mapRef_congr fun other hother => ?_, by simpa [href] using hmem⟩
  rw [Option.some.inj (href.symm.trans hother)]

/-- A container that has not been met is copied if its parts are. -/
theorem Stands.copies_new (h : Stands base met copying) {depth : Nat} (hdown : KeepsUp base depth)
    {value : Value} {ref : Ref} (href : value.ref? = some ref) (hnew : ref ∉ met)
    (hholds : base.Holds value) (hcard : (base.unseen met.reverse).card < depth + 1) :
    Copies base met (base.walk (depth + 1) met.reverse value).reverse copying value
      (copyDown (depth + 1) copying value) := by
  have hold : ref < base.size := hholds ref (.root href)
  have hwalk : base.walk (depth + 1) met.reverse value =
      ((base.fetch ref).slots.map Prod.snd).foldl (base.walk depth) (met ++ [ref]).reverse := by
    simp [Heap.walk, href, hnew, Container.map_snd_slots, Heap.children]
  have hcopy : copyDown (depth + 1) copying value =
      (value.mapRef fun _ => base.size + met.length,
        (base.fetch ref).slots.foldl (copySlot (copyDown depth) (base.size + met.length))
          ⟨(Heap.allocate (base.fetch ref).hollow copying.heap).2,
            copying.met ++ [(ref, base.size + met.length)]⟩) := by
    simp [copyDown, href, h.lookup_met, List.idxOf?_eq_none_iff.2 hnew, h.fetch_eq ref hold,
      Heap.allocate_apply, h.size_eq]
  have hpart : ∀ slot ∈ (base.fetch ref).slots, slot.2 ∈ base.children ref := by
    intro slot hslot
    rw [Heap.children, ← Container.map_snd_slots]
    exact List.mem_map_of_mem hslot
  -- There is one container less to be met, since this one is in the heap.
  have hcard' : (base.unseen (met ++ [ref]).reverse).card < depth := by
    have hless := Heap.card_unseen_cons_lt hold (mt List.mem_reverse.1 hnew)
    rw [List.reverse_append]
    exact Nat.lt_of_lt_of_le hless (Nat.le_of_lt_succ hcard)
  have hlast : base.size + met.length < base.size + (met ++ [ref]).length := by simp
  obtain ⟨hslots, hfetch, hmem⟩ := advances_copySlots hdown (base.fetch ref).slots
    (fun slot hslot other hother =>
      hholds other (.of_child (.root href) (hpart slot hslot) hother))
    hcard' (h.begin ref (base.fetch ref).hollow) (Nat.le_add_right _ _) hlast rfl
  rw [hwalk, hcopy]
  refine ⟨h.filled hslots ?_ ?_, Value.mapRef_congr fun other hother => ?_,
    fun other hother => ?_⟩
  · rintro child ⟨part, hchild, hpartref⟩
    rw [Heap.children, ← Container.map_snd_slots] at hchild
    obtain ⟨slot, hslot, rfl⟩ := List.mem_map.1 hchild
    exact hmem slot hslot child hpartref
  · rw [hfetch, Heap.fetch_allocate, if_pos h.size_eq.symm]
    exact Container.foldl_add _ _
  · obtain rfl := Option.some.inj (href.symm.trans hother)
    rw [Ref.renameTo_of_prefix hslots.extends_met (by simp), Ref.renameTo_concat hnew]
  · obtain rfl := Option.some.inj (href.symm.trans hother)
    exact hslots.extends_met.subset (by simp)

/-- **Copying a value** meets what the walk meets, and renames the value. -/
theorem keepsUp (base : Heap) (depth : Nat) : KeepsUp base depth := by
  induction depth with
  | zero => intro _ _ _ h; exact absurd h (Nat.not_lt_zero _)
  | succ depth ih =>
    intro met copying value hcard hholds hstands
    cases href : value.ref? with
    | none => exact hstands.copies_scalar href depth
    | some ref =>
      by_cases hmem : ref ∈ met
      · exact hstands.copies_met href hmem depth
      · exact hstands.copies_new ih href hmem hholds hcard

end Copying

/-- **Copying depth first** makes the copy that is made all at once, at any depth that exceeds
the number of containers. -/
theorem Value.copyWithOrigins_eq_copyDown {heap : Heap} {value : Value} (h : heap.Holds value)
    {depth : Nat} (hdepth : heap.size < depth) :
    let (copy, copying) := Copying.copyDown depth ⟨heap, []⟩ value
    value.copyWithOrigins heap = ((copy, copying.met.map Prod.swap), copying.heap) := by
  have hstands : Copying.Stands heap [] ⟨heap, []⟩ := ⟨rfl, rfl, rfl, fun _ _ => rfl⟩
  have hcard : (heap.unseen []).card < depth := by simpa [Heap.unseen] using hdepth
  have hcopies := Copying.keepsUp heap depth [] ⟨heap, []⟩ value hcard h hstands
  -- There is one walk, and the depth of the copying is enough for it.
  have hreach : (heap.walk depth [] value).reverse = heap.reach value := by
    rw [(Heap.walked_walk depth [] value hcard).unique (Heap.walked_reach heap value),
      List.reverse_reverse]
  rw [List.reverse_nil, hreach] at hcopies
  revert hcopies
  generalize Copying.copyDown depth ⟨heap, []⟩ value = result
  obtain ⟨copy, copying⟩ := result
  rintro ⟨hadvances, hcopy, -⟩
  have hpairs : (value.copyWithOrigins heap).1.2 = copying.met.map Prod.swap := by
    rw [hadvances.stands.met_eq, List.map_map]
    rfl
  have hheap : (value.copyWithOrigins heap).2 = copying.heap := by
    refine Heap.ext_of_fetch hadvances.stands.functions_eq.symm ?_ fun ref hlt => ?_
    · rw [size_copyWithOrigins, hadvances.stands.size_eq]
    · by_cases hold : ref < heap.size
      · rw [fetch_copyWithOrigins_of_lt value heap hold, hadvances.stands.fetch_eq ref hold]
      · -- A new container is the copy of one of those that the value leads to.
        have hle : heap.size ≤ ref := Nat.not_lt.1 hold
        rw [size_copyWithOrigins] at hlt
        obtain ⟨original, hcopied⟩ := Ref.Copied.exists_of_lt hle hlt
        rw [fetch_copyWithOrigins value heap hcopied, (hadvances.newer original ref hcopied hle).2]
  exact Prod.ext (Prod.ext hcopy.symm hpairs) hheap

end Conform
