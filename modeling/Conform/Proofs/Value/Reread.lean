import Conform.Proofs.Value.Equality
import Conform.Proofs.Value.Printed
import Conform.Proofs.Value.Shown

/-!
# Documents read and written again

A value is written in one of the forms that its document could have: a number that is an
integer, and that doubles can tell from its neighbours, is written as an integer and every
other as a double, and no object names a member twice.  A document of this form is the one
that is written for the value that is read from it.  So writing, reading and writing again
gives the same document, also where a container was cut off below itself.

What is lost in a document is lost for good: where a value contains itself, and functions,
moments and numbers without digits.  A value without them is equal to the one that is read
from its document, although what the value shares is read as separate containers and a
negative zero as the zero.

## Main definitions

* `Json.Canonical`: documents in the form in which values are written.
* `Heap.Sayable`: values with nothing in them that a document cannot tell.

## Main results

* `Value.canonical_toJson`: the document of a value is in that form.
* `Json.Canonical.toJson_ofJson`: such a document is written for what is read from it.
* `Value.reread_toJson`: writing, reading and writing again, and writing and reading.
-/

namespace Conform

/-! ## The form in which values are written -/

/-- A document in the form in which values are written: every number as the double that it
stands for is written, and no member named twice. -/
inductive Json.Canonical : Json → Prop where
  | null : Canonical .null
  | bool (b : Bool) : Canonical (.bool b)
  | number {n : Json.Number} : Json.ofFloat n.toFloat = .number n → Canonical (.number n)
  | string (s : String) : Canonical (.string s)
  | array {items : List Json} : (∀ item ∈ items, Canonical item) → Canonical (.array items)
  | object {members : Entries Json} : members.keys.Nodup →
      (∀ member ∈ members, Canonical member.2) → Canonical (.object members)

namespace Json

/-- An integer stays an integer, and a double that is none stays a double. -/
theorem canonical_ofFloat (x : Float) : (ofFloat x).Canonical := by
  unfold ofFloat
  split
  · next n hsafe =>
    obtain ⟨-, hlt⟩ := Option.filter_eq_some_iff.1 hsafe
    refine .number ?_
    simp only [ofFloat, Number.toFloat, Number.safeWhole?_ofInt (of_decide_eq_true hlt)]
  · next hnone =>
    split
    · next hfinite =>
      refine .number ?_
      rw [Number.toFloat, ofFloat, hnone]
      exact if_pos hfinite
    · exact .null

end Json

namespace Value

theorem canonical_toJsonWithin (heap : Heap) (depth : Nat) (entered : List Ref) (value : Value) :
    (value.toJsonWithin heap depth entered).Canonical := by
  induction depth generalizing entered value with
  | zero => exact .null
  | succ depth ih =>
    cases value with
    | null => exact .null
    | bool b => exact .bool b
    | number x => exact Json.canonical_ofFloat x
    | string s => exact .string s
    | dateTime moment => exact .string _
    | function ref => exact .null
    | array ref =>
      simp only [toJsonWithin]
      split
      · exact .null
      · exact .array (List.forall_mem_map.2 fun part _ => ih _ part)
    | object ref =>
      simp only [toJsonWithin]
      split
      · exact .null
      · refine .object ?_ (List.forall_mem_map.2 fun entry _ => ih _ entry.2)
        rw [Entries.keys_mapValues]
        exact OrderedMap.nodup _

/-- **The document of a value is in the form in which values are written.** -/
theorem canonical_toJson (heap : Heap) (value : Value) : (value.toJson heap).Canonical :=
  canonical_toJsonWithin heap _ _ value

end Value

/-! ## Reading and writing again -/

/-- **A document in the form in which values are written** is the one that is written for its
draft. -/
theorem Json.Canonical.toJson_ofJson {json : Json} (h : json.Canonical) :
    (Draft.ofJson json).toJson = json := by
  induction h with
  | null => rfl
  | bool b => rfl
  | number hn => exact hn
  | string s => rfl
  | @array items _ ih =>
    rw [Draft.ofJson, Draft.ofItems_eq_map, Draft.toJson, Draft.toItems_eq_map, List.map_map]
    exact congrArg Json.array ((List.map_congr_left ih).trans (List.map_id items))
  | @object members hnodup _ ih =>
    rw [Draft.ofJson, Draft.ofMembers_eq_mapValues,
      Entries.collect_of_nodup (by simpa using hnodup), Draft.toJson,
      Draft.toMembers_eq_mapValues, Entries.mapValues, Entries.mapValues, List.map_map]
    refine congrArg Json.object ((List.map_congr_left fun member hmember => ?_).trans
      (List.map_id members))
    exact Prod.ext rfl (ih member hmember)

/-! ## Steps into what a document stands for -/

theorem rel_getElem?_of_forall₂ {α β : Type} {R : α → β → Prop} {as : List α} {bs : List β}
    (h : List.Forall₂ R as bs) (i : Nat) : Option.Rel R as[i]? bs[i]? := by
  induction h generalizing i with
  | nil => exact .none
  | cons hab _ ih =>
    cases i with
    | zero => exact .some hab
    | succ i => exact ih i

/-- A step leads somewhere in a value if it does in the document that the value stands for, and
what is there stands for what is there in the document. -/
theorem Heap.Denotes.step?_rel {heap : Heap} {level : Ref → Nat} {json : Json} {value : Value}
    (hjson : json.Canonical) (h : heap.Denotes level (.ofJson json) value) (accessor : Accessor) :
    Option.Rel (fun part inner => heap.Denotes level (.ofJson part) inner)
      (json.step? accessor) (heap.step? value accessor) := by
  cases hjson with
  | number hn => cases h; exact .none
  | @array items _ =>
    rw [Draft.ofJson, Draft.ofItems_eq_map] at h
    cases value with
    | array ref =>
      cases accessor with
      | key name => exact .none
      | index i => exact rel_getElem?_of_forall₂ (List.forall₂_map_left_iff.1 h.items.1) i
    | _ => cases h
  | @object members hnodup _ =>
    rw [Draft.ofJson, Draft.ofMembers_eq_mapValues,
      Entries.collect_of_nodup (by simpa using hnodup)] at h
    cases value with
    | object ref =>
      cases accessor with
      | key name =>
        exact Entries.Alongside.get?_rel (List.forall₂_map_left_iff.1 h.alongside) name
      | index i => exact .none
    | _ => cases h
  | _ => cases h; exact .none

/-! ## What a document can tell -/

/-- The values that a document can tell, but for what they hold: there are no functions and no
moments in documents, and their numbers are finite. -/
def Value.Sayable : Value → Prop
  | .number x => x.isFinite = true
  | .dateTime _ => False
  | .function _ => False
  | _ => True

instance : DecidablePred Value.Sayable
  | .number x => inferInstanceAs (Decidable (x.isFinite = true))
  | .dateTime _ | .function _ => inferInstanceAs (Decidable False)
  | .null | .bool _ | .string _ | .array _ | .object _ => inferInstanceAs (Decidable True)

namespace Heap

/-- No path leads to what a document cannot tell. -/
def Sayable (heap : Heap) (value : Value) : Prop :=
  ∀ path part, heap.follow? value path = some part → part.Sayable

theorem Sayable.part {heap : Heap} {value part : Value} {accessor : Accessor}
    (h : heap.Sayable value) (hstep : heap.step? value accessor = some part) :
    heap.Sayable part := by
  intro path inner hpath
  refine h (accessor :: path) inner ?_
  rw [follow?_cons, hstep]
  exact hpath

/-- What holds of a value and of all that containers hold holds along every path. -/
theorem Sayable.of_children {heap : Heap} {value : Value} (hself : value.Sayable)
    (hchildren : ∀ parent < heap.size, ∀ part ∈ heap.children parent, part.Sayable) :
    heap.Sayable value := by
  intro path part hpath
  induction path generalizing value with
  | nil =>
    cases hpath
    exact hself
  | cons accessor rest ih =>
    obtain ⟨next, hnext, hrest⟩ := Option.bind_eq_some_iff.1 hpath
    obtain ⟨parent, -, hlt, hmem⟩ := exists_of_step? hnext
    exact ih (hchildren parent hlt next hmem) hrest

/-- A value of a heap that has grown since, and one of the grown heap that stands for its
document inside some containers.  The older value does not lead to any of these. -/
structure Retells (heap heap' : Heap) (level : Ref → Nat) (entered : List Ref) (x y : Value) :
    Prop where
  grown : heap.Extends heap'
  holds : heap.Holds x
  acyclic : heap.Acyclic x
  sayable : heap.Sayable x
  apart : ∀ ref ∈ entered, ¬ heap.Reachable x ref
  denotes : heap'.Denotes level (.ofJson (x.toJsonInside heap entered)) y

namespace Retells

variable {heap heap' : Heap} {level : Ref → Nat} {entered : List Ref} {x y : Value} {ref : Ref}

theorem not_mem (h : heap.Retells heap' level entered x y) (href : x.ref? = some ref) :
    ref ∉ entered :=
  fun hmem => h.apart ref hmem (.root href)

theorem fetch_eq (h : heap.Retells heap' level entered x y) (href : x.ref? = some ref) :
    heap'.fetch ref = heap.fetch ref :=
  h.grown.fetch_eq ref (h.holds ref (.root href))

theorem step?_eq (h : heap.Retells heap' level entered x y) (accessor : Accessor) :
    heap'.step? x accessor = heap.step? x accessor := by
  cases x with
  | array ref => cases accessor <;> simp only [step?, items, h.fetch_eq rfl]
  | object ref => cases accessor <;> simp only [step?, fields, h.fetch_eq rfl]
  | _ => cases accessor <;> rfl

/-- Before a step is taken, both values look the same. -/
theorem resembles (h : heap.Retells heap' level entered x y) : heap'.Resembles y x := by
  have hself := h.sayable [] x rfl
  have hdenotes := h.denotes
  cases x with
  | null => cases hdenotes; exact .null
  | bool b => cases hdenotes; exact .bool b
  | number x =>
    -- The number that is written stands for an equal double, if not for the same.
    obtain ⟨n, hn, heq⟩ := Json.exists_ofFloat hself
    have hwritten : (Value.number x).toJsonInside heap entered = .number n := hn
    rw [hwritten] at hdenotes
    cases hdenotes
    exact .number (Number.beq_symm heq)
  | string s => cases hdenotes; exact .string s
  | dateTime moment => cases hself
  | function ref => cases hself
  | array r =>
    rw [Value.toJsonInside_array (h.not_mem rfl), Draft.ofJson, Draft.ofItems_eq_map] at hdenotes
    cases y with
    | array s =>
      have hlength := hdenotes.items.1.length_eq
      rw [List.length_map, List.length_map] at hlength
      refine .array ?_
      rw [← hlength, items, items, h.fetch_eq rfl]
    | _ => cases hdenotes
  | object r =>
    rw [Value.toJsonInside_object (h.not_mem rfl), Draft.ofJson, Draft.ofMembers_eq_mapValues,
      Entries.collect_of_nodup (by simpa using OrderedMap.nodup _)] at hdenotes
    cases y with
    | object s =>
      have hkeys := hdenotes.keys_eq
      rw [Entries.keys_mapValues, Entries.keys_mapValues] at hkeys
      refine .object fun name => ?_
      rw [hkeys, fields, fields, h.fetch_eq rfl]
      rfl
    | _ => cases hdenotes

/-- What a step leads to from both is retold in turn, inside one container more. -/
theorem part (h : heap.Retells heap' level entered x y) {accessor : Accessor} {x' y' : Value}
    (hx : heap'.step? x accessor = some x') (hy : heap'.step? y accessor = some y') :
    ∃ ref, heap.Retells heap' level (ref :: entered) x' y' := by
  rw [h.step?_eq] at hx
  obtain ⟨ref, href, -, -⟩ := exists_of_step? hx
  obtain ⟨hacyclic, hroot⟩ := h.acyclic.part hx
  have hcanonical : (x.toJsonInside heap entered).Canonical := Value.canonical_toJsonWithin ..
  have hrel := h.denotes.step?_rel hcanonical accessor
  rw [Value.step?_toJsonInside href (h.not_mem href), hx, hy] at hrel
  obtain ⟨hdenotes⟩ := hrel
  refine ⟨ref, h.grown, h.holds.part hx, hacyclic, h.sayable.part hx,
    List.forall_mem_cons.2 ⟨hroot ref href, ?_⟩, hdenotes⟩
  exact fun other hmem hreach => h.apart other hmem (hreach.of_step? hx)

/-- **No path tells a value from the one that retells it.** -/
theorem indiscernible (h : heap.Retells heap' level entered x y) : heap'.Indiscernible y x := by
  intro path
  induction path generalizing x y entered with
  | nil => exact .some h.resembles
  | cons accessor rest ih =>
    rw [follow?_cons, follow?_cons]
    rcases h.resembles.step?_cases accessor with ⟨hy, hx⟩ | ⟨y', x', hy, hx⟩
    · rw [hx, hy]
      exact .none
    · rw [hx, hy]
      obtain ⟨ref, hpart⟩ := h.part hx hy
      exact ih hpart

end Retells

end Heap

/-! ## Reading what was written -/

/-- **Writing, reading and writing again** gives the document that was written first, in
whatever heap it is read and however the value shares and contains itself.  **Writing and
reading** gives a value that is equal to the first one, if that does not contain itself and
there is nothing in it that a document cannot tell. -/
theorem Value.reread_toJson (heap : Heap) (value : Value) :
    (∀ other : Heap,
      let reread := Value.ofJson (value.toJson heap) other
      reread.1.toJson reread.2 = value.toJson heap) ∧
    (heap.Holds value → heap.Acyclic value → heap.Sayable value →
      let reread := Value.ofJson (value.toJson heap) heap
      reread.1.equal reread.2 value = true) := by
  refine ⟨fun other => ?_, fun hholds hacyclic hsayable => ?_⟩
  · obtain ⟨-, hdenotes⟩ := HeapM.makes_ofJson (value.toJson heap) other
    exact hdenotes.toJson_eq.trans (canonical_toJson heap value).toJson_ofJson
  · obtain ⟨hgrown, hdenotes⟩ := HeapM.makes_ofJson (value.toJson heap) heap
    have hretells : heap.Retells _ id [] value (Value.ofJson (value.toJson heap) heap).1 :=
      ⟨hgrown, hholds, hacyclic, hsayable, nofun, hdenotes⟩
    exact hretells.indiscernible.equalWithin _

/-- An array that holds an object twice, with a negative zero and a number that is an integer but
not written as one. -/
theorem Value.reread_toJson_shared :
    let heap : Heap := { containers := #[
      .object (.ofList [("zero", .number (-0.0)), ("large", .number 9007199254740994)]),
      .array [.object 0, .object 0, .null]] }
    let reread := Value.ofJson ((Value.array 1).toJson heap) heap
    reread.1 = .array 4 ∧ reread.1.toJson reread.2 = (Value.array 1).toJson heap ∧
      reread.1.equal reread.2 (.array 1) = true := by
  intro heap reread
  obtain ⟨hagain, hequal⟩ := reread_toJson heap (.array 1)
  have hholds : heap.Holds (.array 1) := by
    simp only [Heap.Holds, ← Heap.mem_reach_iff]
    decide
  have hparts : ∀ parent < heap.size, ∀ part ∈ heap.children parent,
      part.Sayable ∧ ∀ child ∈ part.ref?, child < parent := by decide
  have hacyclic : heap.Acyclic (.array 1) := by
    refine Heap.acyclic_of_child_lt (fun parent child ⟨part, hpart, hchild⟩ => ?_) _
    exact (hparts parent (Heap.lt_size_of_mem_children hpart) part hpart).2 child hchild
  have hsayable : heap.Sayable (.array 1) :=
    .of_children trivial fun parent hlt part hpart => (hparts parent hlt part hpart).1
  exact ⟨by decide, hagain heap, hequal hholds hacyclic hsayable⟩

end Conform
