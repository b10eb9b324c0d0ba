import Mathlib.Logic.Relator
import Conform.Value.Equality
import Conform.Proofs.Value.Entries
import Conform.Proofs.Value.Heap

/-!
# Values alike up to the containers behind them

Two heaps can hold the same values in different places.  A relation between the places
says which containers stand for each other; values are alike when they are the same
scalar or lead to containers that do, and containers are alike when their parts are, in
order and under the same keys.

Nothing is asked of the relation here: reading alike containers gives alike parts, and
alike changes keep them alike.  What tells containers apart asks for a relation that
pairs them off one to one, and is dealt with where it is needed.

## Main definitions

* `Value.Alike`, `Container.Alike`: alike up to a relation between places.
* `Heap.Agree`: containers that stand for each other are alike.

## Main results

* `Value.equalsJson_eq`: alike values have the contents of the same documents.
-/

namespace Conform

/-- The same scalar, or containers that stand for each other. -/
inductive Value.Alike (ref : Ref → Ref → Prop) : Value → Value → Prop where
  | scalar {value : Value} : value.ref? = none → Alike ref value value
  | array {r s : Ref} : ref r s → Alike ref (.array r) (.array s)
  | object {r s : Ref} : ref r s → Alike ref (.object r) (.object s)

/-- The same keys in the same order, with alike values. -/
abbrev Entries.Alike (ref : Ref → Ref → Prop) (xs ys : Entries Value) : Prop :=
  Entries.Alongside (Value.Alike ref) xs ys

/-- Containers of one kind with alike parts. -/
inductive Container.Alike (ref : Ref → Ref → Prop) : Container → Container → Prop where
  | array {xs ys : List Value} : List.Forall₂ (Value.Alike ref) xs ys →
      Alike ref (.array xs) (.array ys)
  | object {xs ys : OrderedMap Value} : Entries.Alike ref xs.entries ys.entries →
      Alike ref (.object xs) (.object ys)

/-- Containers that stand for each other are alike. -/
def Heap.Agree (ref : Ref → Ref → Prop) (left right : Heap) : Prop :=
  ∀ r s, ref r s → Container.Alike ref (left.fetch r) (right.fetch s)

variable {ref : Ref → Ref → Prop}

/-! ## Values -/

namespace Value.Alike

variable {v w : Value}

theorem mono {ref' : Ref → Ref → Prop} (h : ∀ r s, ref r s → ref' r s) (hv : Alike ref v w) :
    Alike ref' v w := by
  cases hv with
  | scalar hnone => exact .scalar hnone
  | array hr => exact .array (h _ _ hr)
  | object hr => exact .object (h _ _ hr)

@[simp] theorem null : Alike ref .null .null := .scalar rfl

theorem isAbsent_eq (h : Alike ref v w) : v.isAbsent = w.isAbsent := by
  cases h <;> rfl

theorem symm (h : Alike ref v w) : Alike (flip ref) w v := by
  cases h with
  | scalar hnone => exact .scalar hnone
  | array hr => exact .array hr
  | object hr => exact .object hr

/-- Where places stand only for themselves, alike values are the same. -/
theorem eq_of_eq (href : ∀ r s, ref r s → r = s) (h : Alike ref v w) : v = w := by
  cases h with
  | scalar _ => rfl
  | array hr => rw [href _ _ hr]
  | object hr => rw [href _ _ hr]

/-- A value whose container stands for itself is alike itself. -/
theorem refl (h : ∀ r, v.ref? = some r → ref r r) : Alike ref v v := by
  cases v with
  | array r => exact .array (h r rfl)
  | object r => exact .object (h r rfl)
  | _ => exact .scalar rfl

theorem ref?_eq_none (h : Alike ref v w) (hv : v.ref? = none) : w.ref? = none := by
  cases h with
  | scalar hnone => exact hnone
  | array _ => cases hv
  | object _ => cases hv

/-- The containers behind alike values stand for each other. -/
theorem exists_of_ref? (h : Alike ref v w) {r : Ref} (hr : v.ref? = some r) :
    ∃ s, w.ref? = some s ∧ ref r s := by
  cases h with
  | scalar hnone => rw [hnone] at hr; cases hr
  | array hrs => obtain rfl := Option.some.inj hr; exact ⟨_, rfl, hrs⟩
  | object hrs => obtain rfl := Option.some.inj hr; exact ⟨_, rfl, hrs⟩

/-- Renaming the containers of alike values keeps them alike, if the new names stand for
each other. -/
theorem mapRef {ref' : Ref → Ref → Prop} {f g : Ref → Ref}
    (hfg : ∀ r s, ref r s → ref' (f r) (g s)) (h : Alike ref v w) :
    Alike ref' (v.mapRef f) (w.mapRef g) := by
  cases h with
  | scalar hnone =>
    cases v with
    | array r => cases hnone
    | object r => cases hnone
    | _ => exact .scalar rfl
  | array hr => exact .array (hfg _ _ hr)
  | object hr => exact .object (hfg _ _ hr)

end Value.Alike

theorem Value.Alike.getD_null {x y : Option Value} (h : Option.Rel (Value.Alike ref) x y) :
    Value.Alike ref (x.getD .null) (y.getD .null) := by
  cases h with
  | some h => exact h
  | none => exact .null

/-! ## Containers -/

namespace Container.Alike

variable {c d : Container}

theorem mono {ref' : Ref → Ref → Prop} (h : ∀ r s, ref r s → ref' r s) (hc : Alike ref c d) :
    Alike ref' c d := by
  cases hc with
  | array hxs => exact .array (hxs.imp fun _ _ => Value.Alike.mono h)
  | object hxs => exact .object (hxs.imp fun _ _ hxy => ⟨hxy.1, hxy.2.mono h⟩)

theorem symm (h : Alike ref c d) : Alike (flip ref) d c := by
  cases h with
  | array hxs => exact .array (hxs.flip.imp fun _ _ => Value.Alike.symm)
  | object hxs => exact .object (hxs.flip.imp fun _ _ hxy => ⟨hxy.1.symm, hxy.2.symm⟩)

theorem items (h : Alike ref c d) : List.Forall₂ (Value.Alike ref) c.items d.items := by
  cases h with
  | array hxs => exact hxs
  | object _ => exact .nil

theorem fields (h : Alike ref c d) : Entries.Alike ref c.fields.entries d.fields.entries := by
  cases h with
  | array _ => exact .nil
  | object hxs => exact hxs

theorem children (h : Alike ref c d) :
    List.Forall₂ (Value.Alike ref) c.children d.children := by
  cases h with
  | array hxs => exact hxs
  | object hxs =>
    exact List.forall₂_map_left_iff.2 (List.forall₂_map_right_iff.2 (hxs.imp fun _ _ => And.right))

/-- A container is alike itself when the containers it holds stand for themselves. -/
theorem refl (h : ∀ v ∈ c.children, ∀ r, v.ref? = some r → ref r r) : Alike ref c c := by
  cases c with
  | array items => exact .array (List.forall₂_same.2 fun v hv => .refl (h v hv))
  | object fields =>
    exact .object (List.forall₂_same.2 fun entry hentry =>
      ⟨rfl, .refl (h entry.2 (List.mem_map_of_mem hentry))⟩)

theorem eq_of_eq (href : ∀ r s, ref r s → r = s) (h : Alike ref c d) : c = d := by
  have hmono := h.mono href
  cases hmono with
  | array hxs =>
    congr
    refine List.forall₂_eq_eq_eq ▸ hxs.imp fun _ _ => Value.Alike.eq_of_eq fun _ _ hr => hr
  | @object xs ys hxs =>
    have heq : xs.entries = ys.entries := by
      refine List.forall₂_eq_eq_eq ▸ hxs.imp fun x y hxy => ?_
      exact Prod.ext hxy.1 (hxy.2.eq_of_eq fun _ _ hr => hr)
    obtain ⟨entries, _⟩ := xs
    obtain ⟨entries', _⟩ := ys
    congr

theorem mapValues {ref' : Ref → Ref → Prop} {f g : Value → Value}
    (hfg : ∀ v w, Value.Alike ref v w → Value.Alike ref' (f v) (g w)) (h : Alike ref c d) :
    Alike ref' (c.mapValues f) (d.mapValues g) := by
  cases h with
  | array hxs =>
    exact .array (List.forall₂_map_left_iff.2 (List.forall₂_map_right_iff.2 (hxs.imp hfg)))
  | object hxs =>
    exact .object (List.forall₂_map_left_iff.2 (List.forall₂_map_right_iff.2
      (hxs.imp fun _ _ hxy => ⟨hxy.1, hfg _ _ hxy.2⟩)))

theorem setItem (h : Alike ref c d) (i : Nat) {v w : Value} (hvw : Value.Alike ref v w) :
    Alike ref (c.mapItems (·.set i v)) (d.mapItems (·.set i w)) := by
  cases h with
  | array hxs =>
    refine .array ?_
    induction hxs generalizing i with
    | nil => exact .nil
    | cons hxy hrest ih =>
      cases i with
      | zero => exact .cons hvw hrest
      | succ i => exact .cons hxy (ih i)
  | object hxs => exact .object hxs

theorem insertField (h : Alike ref c d) (key : String) {v w : Value}
    (hvw : Value.Alike ref v w) :
    Alike ref (c.mapFields (·.insert key v)) (d.mapFields (·.insert key w)) := by
  cases h with
  | array hxs => exact .array hxs
  | object hxs => exact .object (hxs.insert key hvw)

end Container.Alike

/-! ## Documents -/

section Documents

variable {left right : Heap}

mutual

/-- **Alike values have the contents of the same documents.** -/
theorem Value.equalsJson_eq (h : Heap.Agree ref left right) (json : Json) {v w : Value}
    (hvw : Value.Alike ref v w) : v.equalsJson left json = w.equalsJson right json := by
  cases hvw with
  | scalar hnone =>
    cases v with
    | array r => cases hnone
    | object r => cases hnone
    | _ => cases json <;> simp [equalsJson]
  | array hr =>
    cases json with
    | array items =>
      simp only [equalsJson]
      exact equalsItems_eq h items (h _ _ hr).items
    | _ => simp [equalsJson]
  | @object r s hr =>
    cases json with
    | object members =>
      have hfields : Entries.Alike ref (left.fields r).entries (right.fields s).entries :=
        (h _ _ hr).fields
      -- Members are looked up by name, and so the number of fields is compared as well.
      have hsize : (left.fields r).size = (right.fields s).size := List.Forall₂.length_eq hfields
      simp only [equalsJson, hsize]
      rw [equalsMembers_eq h members hfields]
    | _ => simp [equalsJson]

theorem Value.equalsItems_eq (h : Heap.Agree ref left right) (items : List Json)
    {xs ys : List Value} (hxs : List.Forall₂ (Value.Alike ref) xs ys) :
    equalsItems left items xs = equalsItems right items ys := by
  cases items with
  | nil => cases hxs <;> simp [equalsItems]
  | cons item rest =>
    cases hxs with
    | nil => simp [equalsItems]
    | cons hxy hrest =>
      simp only [equalsItems]
      rw [equalsJson_eq h item hxy, equalsItems_eq h rest hrest]

theorem Value.equalsMembers_eq (h : Heap.Agree ref left right) (members : List (String × Json))
    {xs ys : OrderedMap Value} (hxs : Entries.Alike ref xs.entries ys.entries) :
    equalsMembers left members xs = equalsMembers right members ys := by
  cases members with
  | nil => simp [equalsMembers]
  | cons member rest =>
    obtain ⟨name, json⟩ := member
    simp only [equalsMembers]
    rw [equalsMembers_eq h rest hxs]
    have hget : Option.Rel (Value.Alike ref) (xs.get? name) (ys.get? name) := hxs.get?_rel name
    revert hget
    generalize xs.get? name = x
    generalize ys.get? name = y
    intro hget
    cases hget with
    | some hvw => simp only [equalsJson_eq h json hvw]
    | none => rfl

end

end Documents

end Conform
