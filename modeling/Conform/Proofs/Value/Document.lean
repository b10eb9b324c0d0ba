import Conform.Proofs.Value.Alike
import Conform.Value.Reach

/-!
# New values in two heaps

A document that is made a value in two heaps gives the same new containers in both, but
for the places that they take: in each heap they take the next places, in the same order.
So the new values are alike, and hold nothing that was there before.

## Main definitions

* `Ref.Shifted`: places at the same distance from where the new ones begin.
* `Heap.Grown`: two heaps with corresponding new containers.

## Main results

* `Heap.Grown.trans`: growing in steps.
* `Heap.grown_ofJson`: the values of a document in two heaps are alike.
* `Heap.new_of_child_ofJson`: they hold nothing that was there before.
-/

namespace Conform

/-- Places at the same distance, below `count`, from two bases. -/
def Ref.Shifted (base base' count : Nat) (r s : Ref) : Prop :=
  ∃ i, i < count ∧ r = base + i ∧ s = base' + i

theorem Ref.Shifted.mono {base base' count count' : Nat} (hle : count ≤ count') (r s : Ref)
    (h : Shifted base base' count r s) : Shifted base base' count' r s := by
  obtain ⟨i, hi, hr, hs⟩ := h
  exact ⟨i, Nat.lt_of_lt_of_le hi hle, hr, hs⟩

/-- Shifted further out is shifted. -/
theorem Ref.Shifted.after {base base' first count : Nat} (r s : Ref)
    (h : Shifted (base + first) (base' + first) count r s) :
    Shifted base base' (first + count) r s := by
  obtain ⟨i, hi, hr, hs⟩ := h
  exact ⟨first + i, Nat.add_lt_add_left hi _, by rw [hr, Nat.add_assoc],
    by rw [hs, Nat.add_assoc]⟩

namespace Heap

/-- Two heaps have grown by the same number of containers, which correspond. -/
structure Grown (left right left' right' : Heap) (count : Nat) : Prop where
  size_left : left'.size = left.size + count
  size_right : right'.size = right.size + count
  fetch_left : ∀ ref, ref < left.size → left'.fetch ref = left.fetch ref
  fetch_right : ∀ ref, ref < right.size → right'.fetch ref = right.fetch ref
  agree : Agree (Ref.Shifted left.size right.size count) left' right'

namespace Grown

variable {left right left' right' left'' right'' : Heap} {count count' : Nat}

theorem refl (left right : Heap) : Grown left right left right 0 where
  size_left := rfl
  size_right := rfl
  fetch_left := fun _ _ => rfl
  fetch_right := fun _ _ => rfl
  agree := by
    rintro r s ⟨i, hi, -⟩
    exact absurd hi (Nat.not_lt_zero i)

/-- Growing in two steps. -/
theorem trans (h : Grown left right left' right' count)
    (h' : Grown left' right' left'' right'' count') :
    Grown left right left'' right'' (count + count') where
  size_left := by rw [h'.size_left, h.size_left, Nat.add_assoc]
  size_right := by rw [h'.size_right, h.size_right, Nat.add_assoc]
  fetch_left := by
    intro ref hlt
    rw [h'.fetch_left ref (h.size_left ▸ Nat.lt_add_right _ hlt), h.fetch_left ref hlt]
  fetch_right := by
    intro ref hlt
    rw [h'.fetch_right ref (h.size_right ▸ Nat.lt_add_right _ hlt), h.fetch_right ref hlt]
  agree := by
    rintro _ _ ⟨i, hi, rfl, rfl⟩
    by_cases hfirst : i < count
    · rw [h'.fetch_left _ (h.size_left ▸ Nat.add_lt_add_left hfirst _),
        h'.fetch_right _ (h.size_right ▸ Nat.add_lt_add_left hfirst _)]
      exact (h.agree _ _ ⟨i, hfirst, rfl, rfl⟩).mono (Ref.Shifted.mono (Nat.le_add_right _ _))
    · -- What was made in the second step is counted from where the first has ended.
      have hle : count ≤ i := Nat.not_lt.1 hfirst
      have hlater := h'.agree (left.size + i) (right.size + i)
        ⟨i - count, Nat.sub_lt_left_of_lt_add hle hi,
          by rw [h.size_left, Nat.add_assoc, Nat.add_sub_of_le hle],
          by rw [h.size_right, Nat.add_assoc, Nat.add_sub_of_le hle]⟩
      rw [h.size_left, h.size_right] at hlater
      exact hlater.mono Ref.Shifted.after

/-- A new container in each heap, alike to the other. -/
theorem allocate (h : Grown left right left' right' count) {c d : Container}
    (hcd : Container.Alike (Ref.Shifted left.size right.size count) c d) :
    Grown left right (allocate c left').2 (allocate d right').2 (count + 1) where
  size_left := by rw [size_allocate, h.size_left, Nat.add_assoc]
  size_right := by rw [size_allocate, h.size_right, Nat.add_assoc]
  fetch_left := by
    intro ref hlt
    have hne : ref ≠ left'.size := by rw [h.size_left]; exact Nat.ne_of_lt (Nat.lt_add_right _ hlt)
    rw [fetch_allocate, if_neg hne, h.fetch_left ref hlt]
  fetch_right := by
    intro ref hlt
    have hne : ref ≠ right'.size := by
      rw [h.size_right]; exact Nat.ne_of_lt (Nat.lt_add_right _ hlt)
    rw [fetch_allocate, if_neg hne, h.fetch_right ref hlt]
  agree := by
    rintro _ _ ⟨i, hi, rfl, rfl⟩
    have hmono : ∀ r s, Ref.Shifted left.size right.size count r s →
        Ref.Shifted left.size right.size (count + 1) r s :=
      Ref.Shifted.mono (Nat.le_add_right count 1)
    rw [fetch_allocate, fetch_allocate, h.size_left, h.size_right]
    by_cases hlast : i = count
    · subst hlast
      rw [if_pos rfl, if_pos rfl]
      exact hcd.mono hmono
    · have hlt : i < count := by omega
      rw [if_neg fun heq => hlast (Nat.add_left_cancel heq),
        if_neg fun heq => hlast (Nat.add_left_cancel heq)]
      exact (h.agree _ _ ⟨i, hlt, rfl, rfl⟩).mono hmono

end Grown

/-! ## Documents -/

/-- Values made in two heaps that are alike, with corresponding new containers. -/
def GrownWith {α : Type} (left right : Heap) (R : (Ref → Ref → Prop) → α → α → Prop)
    (m : HeapM α) : Prop :=
  ∃ count, Grown left right (m left).2 (m right).2 count ∧
    R (Ref.Shifted left.size right.size count) (m left).1 (m right).1

mutual

/-- **The values of a document in two heaps are alike.** -/
theorem grown_ofJson (json : Json) (left right : Heap) :
    GrownWith left right Value.Alike (Value.ofJson json) := by
  cases json with
  | array items =>
    obtain ⟨count, hgrown, hitems⟩ := grown_ofItems items left right
    refine ⟨count + 1, hgrown.allocate (.array hitems), .array ?_⟩
    exact ⟨count, Nat.lt_succ_self _, hgrown.size_left, hgrown.size_right⟩
  | object members =>
    obtain ⟨count, hgrown, hmembers⟩ := grown_ofMembers members left right
    refine ⟨count + 1, hgrown.allocate (.object hmembers.collect), .object ?_⟩
    exact ⟨count, Nat.lt_succ_self _, hgrown.size_left, hgrown.size_right⟩
  | _ => exact ⟨0, .refl left right, .scalar rfl⟩

theorem grown_ofItems (items : List Json) (left right : Heap) :
    GrownWith left right (fun ref => List.Forall₂ (Value.Alike ref)) (Value.ofItems items) := by
  cases items with
  | nil => exact ⟨0, .refl left right, .nil⟩
  | cons item rest =>
    obtain ⟨first, hfirst, hitem⟩ := grown_ofJson item left right
    obtain ⟨count, hrest, hitems⟩ :=
      grown_ofItems rest (Value.ofJson item left).2 (Value.ofJson item right).2
    refine ⟨first + count, hfirst.trans hrest,
      .cons (hitem.mono ?_) (hitems.imp fun _ _ h => h.mono ?_)⟩
    · exact Ref.Shifted.mono (Nat.le_add_right _ _)
    · rw [hfirst.size_left, hfirst.size_right]
      exact Ref.Shifted.after

theorem grown_ofMembers (members : List (String × Json)) (left right : Heap) :
    GrownWith left right Entries.Alike (Value.ofMembers members) := by
  cases members with
  | nil => exact ⟨0, .refl left right, .nil⟩
  | cons member rest =>
    obtain ⟨name, json⟩ := member
    obtain ⟨first, hfirst, hjson⟩ := grown_ofJson json left right
    obtain ⟨count, hrest, hmembers⟩ :=
      grown_ofMembers rest (Value.ofJson json left).2 (Value.ofJson json right).2
    refine ⟨first + count, hfirst.trans hrest,
      .cons ⟨rfl, hjson.mono ?_⟩ (hmembers.imp fun _ _ h => ⟨h.1, h.2.mono ?_⟩)⟩
    · exact Ref.Shifted.mono (Nat.le_add_right _ _)
    · rw [hfirst.size_left, hfirst.size_right]
      exact Ref.Shifted.after

end

/-! ## One heap

What corresponds to itself in this way is new. -/

variable {heap : Heap} {json : Json}

/-- The value of a document is new. -/
theorem new_of_ref?_ofJson {ref : Ref} (h : (Value.ofJson json heap).1.ref? = some ref) :
    heap.size ≤ ref ∧ ref < (Value.ofJson json heap).2.size := by
  obtain ⟨count, hgrown, halike⟩ := grown_ofJson json heap heap
  obtain ⟨_, -, i, hi, rfl, -⟩ := halike.exists_of_ref? h
  rw [hgrown.size_left]
  exact ⟨Nat.le_add_right _ _, Nat.add_lt_add_left hi _⟩

/-- New containers hold new ones. -/
theorem new_of_child_ofJson {parent child : Ref} (hle : heap.size ≤ parent)
    (hchild : (Value.ofJson json heap).2.Child parent child) :
    heap.size ≤ child ∧ child < (Value.ofJson json heap).2.size := by
  obtain ⟨part, hpart, href⟩ := hchild
  obtain ⟨count, hgrown, -⟩ := grown_ofJson json heap heap
  have hlt : parent < heap.size + count := by
    rw [← hgrown.size_left]
    refine Nat.lt_of_not_le fun hout => ?_
    rw [children, fetch_of_size_le _ hout] at hpart
    cases hpart
  -- The document is compared with itself, in the same heap.
  have halike := hgrown.agree parent parent ⟨parent - heap.size,
    Nat.sub_lt_left_of_lt_add hle hlt, (Nat.add_sub_of_le hle).symm, (Nat.add_sub_of_le hle).symm⟩
  have hnew : List.Forall₂ (fun v w => (∀ ref, v.ref? = some ref →
        heap.size ≤ ref ∧ ref < heap.size + count) ∧
      Value.Alike (Ref.Shifted heap.size heap.size count) v w)
      ((Value.ofJson json heap).2.children parent)
      ((Value.ofJson json heap).2.children parent) := by
    refine halike.children.imp fun v w hvw => ⟨fun ref href => ?_, hvw⟩
    obtain ⟨_, -, i, hi, rfl, -⟩ := hvw.exists_of_ref? href
    exact ⟨Nat.le_add_right _ _, Nat.add_lt_add_left hi _⟩
  rw [hgrown.size_left]
  exact ((List.forall₂_and_left _ _).1 hnew).1 part hpart child href

end Heap

end Conform
