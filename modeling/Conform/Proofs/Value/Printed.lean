import Conform.Proofs.Definition.Readable
import Conform.Proofs.Value.Denotation
import Conform.Proofs.Value.Whole
import Conform.Value.Equality
import Conform.Value.ToJson

/-!
# Values that are written as documents

A value that stands for a draft does not contain itself, so nothing is cut off when it is
written as a document: what is written is the draft.  Read again, the document stands for an
equal draft, if the draft has no functions and its numbers have digits.  Values for equal drafts
are equal.

## Main definitions

* `Draft.toJson`: the document of a draft.
* `Draft.Equal`: drafts with equal numbers.
* `Draft.Sayable`: drafts that documents can stand for.

## Main results

* `Heap.Denotes.toJson_eq`: the document of a value is the document of its draft.
* `Heap.Denotes.equal`: values for equal drafts are equal.
* `Draft.Sayable.equal_ofJson_toJson`: a draft that is written and read again is equal.
-/

namespace Conform

namespace Draft

/-! ## Writing -/

mutual

/-- The document of a draft. -/
def toJson : Draft → Json
  | .null => .null
  | .bool b => .bool b
  | .number x => .ofFloat x
  | .string s => .string s
  | .function => .null
  | .array items => .array (toItems items)
  | .object members => .object (toMembers members)

/-- The documents of items. -/
def toItems : List Draft → List Json
  | [] => []
  | item :: rest => toJson item :: toItems rest

/-- The documents of members. -/
def toMembers : List (String × Draft) → List (String × Json)
  | [] => []
  | (name, draft) :: rest => (name, toJson draft) :: toMembers rest

end

theorem toItems_eq_map (items : List Draft) : toItems items = items.map toJson := by
  induction items with
  | nil => rfl
  | cons item rest ih => rw [toItems, ih, List.map_cons]

theorem toMembers_eq_mapValues (members : Entries Draft) :
    toMembers members = Entries.mapValues toJson members := by
  induction members with
  | nil => rfl
  | cons member rest ih =>
    obtain ⟨name, draft⟩ := member
    rw [toMembers, ih]
    rfl

/-! ## Equality -/

/-- Drafts that are the same, but for numbers that are equal only. -/
inductive Equal : Draft → Draft → Prop where
  | null : Equal .null .null
  | bool (b : Bool) : Equal (.bool b) (.bool b)
  | number {x y : Float} : (x == y) = true → Equal (.number x) (.number y)
  | string (s : String) : Equal (.string s) (.string s)
  | array {items others : List Draft} : List.Forall₂ Equal items others →
      Equal (.array items) (.array others)
  | object {members others : List (String × Draft)} :
      Entries.keys members = Entries.keys others →
      List.Forall₂ Equal (members.map Prod.snd) (others.map Prod.snd) →
      Equal (.object members) (.object others)

/-- A draft without functions whose numbers have digits and that names no member twice. -/
inductive Sayable : Draft → Prop where
  | null : Sayable .null
  | bool (b : Bool) : Sayable (.bool b)
  | number {x : Float} : x.isFinite = true → Sayable (.number x)
  | string (s : String) : Sayable (.string s)
  | array {items : List Draft} : (∀ item ∈ items, Sayable item) → Sayable (.array items)
  | object {members : List (String × Draft)} : (Entries.keys members).Nodup →
      (∀ member ∈ members, Sayable member.2) → Sayable (.object members)

/-- The draft of a document whose numbers have digits. -/
theorem sayable_ofJson {json : Json} (h : json.Finite) : (ofJson json).Sayable := by
  induction h with
  | @intro json hself _ ih =>
    cases json with
    | null => exact .null
    | bool b => exact .bool b
    | number n => exact .number (hself n rfl)
    | string s => exact .string s
    | array items =>
      rw [ofJson, ofItems_eq_map]
      exact .array (List.forall_mem_map.2 ih)
    | object members =>
      rw [ofJson, ofMembers_eq_mapValues]
      refine .object (Entries.nodup_keys_collect _) fun member hmember => ?_
      obtain ⟨part, hpart, rfl⟩ := List.mem_map.1 (Entries.mem_of_mem_collect hmember)
      exact ih _ (List.mem_map_of_mem hpart)

/-- **A draft that is written and read again is equal.** -/
theorem Sayable.equal_ofJson_toJson {draft : Draft} (h : draft.Sayable) :
    draft.Equal (ofJson draft.toJson) := by
  induction h with
  | null => exact .null
  | bool b => exact .bool b
  | number hfinite =>
    obtain ⟨n, hprinted, hequal⟩ := Json.exists_ofFloat hfinite
    rw [toJson, hprinted]
    exact .number hequal
  | string s => exact .string s
  | @array items _ ih =>
    rw [toJson, toItems_eq_map, ofJson, ofItems_eq_map, List.map_map]
    exact .array (List.forall₂_map_right_iff.2 (List.forall₂_same.2 ih))
  | @object members hnodup _ ih =>
    rw [toJson, toMembers_eq_mapValues, ofJson, ofMembers_eq_mapValues,
      Entries.collect_of_nodup (by simpa using hnodup)]
    refine .object (by simp) ?_
    simp only [Entries.mapValues, List.map_map, List.forall₂_map_left_iff,
      List.forall₂_map_right_iff]
    exact List.forall₂_same.2 ih

end Draft

namespace Heap.Denotes

variable {heap : Heap}

/-! ## Documents of values -/

/-- Inside containers that come later, and with depth left for those that come earlier, a
value is written as its draft. -/
theorem toJsonWithin_eq {draft : Draft} {value : Value} (h : heap.Denotes id draft value)
    {depth : Nat} {entered : List Ref} (hdepth : 0 < depth)
    (hbelow : ∀ ref, value.ref? = some ref → ref + 1 < depth ∧ ∀ other ∈ entered, ref < other) :
    value.toJsonWithin heap depth entered = draft.toJson := by
  induction depth generalizing draft value entered with
  | zero => cases hdepth
  | succ depth ih =>
    have hinner : ∀ {ref : Ref}, value.ref? = some ref → ∀ {inner : Draft} {part : Value},
        heap.Denotes id inner part → (∀ child, part.ref? = some child → child < ref) →
        part.toJsonWithin heap depth (ref :: entered) = inner.toJson := by
      intro ref href inner part hpart hlower
      obtain ⟨hlt, hentered⟩ := hbelow ref href
      have hleft : ref < depth := Nat.lt_of_succ_lt_succ hlt
      refine ih hpart (Nat.lt_of_le_of_lt (Nat.zero_le _) hleft) fun child hchild => ?_
      have hchild := hlower child hchild
      exact ⟨Nat.lt_of_le_of_lt hchild hleft, List.forall_mem_cons.2
        ⟨hchild, fun other hother => Nat.lt_trans hchild (hentered other hother)⟩⟩
    have hnew : ∀ {ref : Ref}, value.ref? = some ref → ref ∉ entered := fun href hmem =>
      Nat.lt_irrefl _ ((hbelow _ href).2 _ hmem)
    cases draft with
    | array items =>
      cases value with
      | array ref =>
        obtain ⟨hitems, hlower⟩ := h.items
        have hparts := (List.forall₂_and_left _ _).2 ⟨hlower, hitems.flip⟩
        simp only [Value.toJsonWithin, if_neg (hnew rfl), Draft.toJson, Draft.toItems_eq_map,
          Json.array.injEq]
        rw [← List.forall₂_eq_eq_eq, List.forall₂_map_left_iff, List.forall₂_map_right_iff]
        exact hparts.imp fun part item hpart => hinner rfl hpart.2 hpart.1
      | _ => cases h
    | object members =>
      cases value with
      | object ref =>
        have hlower : ∀ entry ∈ (heap.fields ref).entries, ∀ child, entry.2.ref? = some child →
            child < ref := by
          rintro ⟨name, part⟩ hentry child hchild
          have hget := OrderedMap.get?_of_mem hentry
          have hfield := (h.field name).2 child
          rw [Heap.fieldOf, hget] at hfield
          exact hfield hchild
        have hparts := (List.forall₂_and_left _ _).2 ⟨hlower, h.alongside.flip⟩
        simp only [Value.toJsonWithin, if_neg (hnew rfl), Draft.toJson,
          Draft.toMembers_eq_mapValues, Json.object.injEq]
        rw [← List.forall₂_eq_eq_eq, Entries.mapValues, Entries.mapValues,
          List.forall₂_map_left_iff, List.forall₂_map_right_iff]
        exact hparts.imp fun entry member hentry =>
          Prod.ext hentry.2.1.symm (hinner rfl hentry.2.2 hentry.1)
      | _ => cases h
    | _ => cases h; rfl

/-- **The document of a value is the document of its draft.** -/
theorem toJson_eq {draft : Draft} {value : Value} (h : heap.Denotes id draft value) :
    value.toJson heap = draft.toJson :=
  h.toJsonWithin_eq (Nat.succ_pos _) fun _ href =>
    ⟨Nat.succ_lt_succ (Nat.lt_succ_of_lt (h.lt href)), nofun⟩

end Heap.Denotes

/-! ## Equality of values -/

namespace Heap

variable {heap : Heap} {level : Ref → Nat}

/-- Values for equal drafts. -/
def Equates (heap : Heap) (level : Ref → Nat) (x y : Value) : Prop :=
  ∃ draft draft', heap.Denotes level draft x ∧ heap.Denotes level draft' y ∧ draft.Equal draft'

theorem forall₂_equates {drafts drafts' : List Draft} {xs ys : List Value}
    (hxs : List.Forall₂ (heap.Denotes level) drafts xs)
    (hys : List.Forall₂ (heap.Denotes level) drafts' ys)
    (hequal : List.Forall₂ Draft.Equal drafts drafts') :
    List.Forall₂ (heap.Equates level) xs ys := by
  induction hequal generalizing xs ys with
  | nil => cases hxs; cases hys; exact .nil
  | cons hdraft _ ih =>
    obtain _ | ⟨hx, hxs⟩ := hxs
    obtain _ | ⟨hy, hys⟩ := hys
    exact .cons ⟨_, _, hx, hy, hdraft⟩ (ih hxs hys)

namespace Equates

theorem items {items items' : List Draft} {r s : Ref}
    (h : heap.Denotes level (.array items) (.array r))
    (h' : heap.Denotes level (.array items') (.array s))
    (hequal : List.Forall₂ Draft.Equal items items') :
    List.Forall₂ (heap.Equates level) (heap.items r) (heap.items s) :=
  forall₂_equates h.items.1 h'.items.1 hequal

theorem fields {members members' : List (String × Draft)} {r s : Ref}
    (h : heap.Denotes level (.object members) (.object r))
    (h' : heap.Denotes level (.object members') (.object s))
    (hkeys : Entries.keys members = Entries.keys members')
    (hequal : List.Forall₂ Draft.Equal (members.map Prod.snd) (members'.map Prod.snd)) :
    Entries.Alongside (heap.Equates level) (heap.fields r).entries (heap.fields s).entries := by
  have hvalues : ∀ {members : List (String × Draft)} {ref : Ref},
      heap.Denotes level (.object members) (.object ref) → List.Forall₂ (heap.Denotes level)
        (members.map Prod.snd) ((heap.fields ref).entries.map Prod.snd) := fun h =>
    List.forall₂_map_left_iff.2 (List.forall₂_map_right_iff.2 (h.alongside.imp fun _ _ h => h.2))
  refine .of_keys_eq ?_ (forall₂_equates (hvalues h) (hvalues h') hequal)
  exact h.keys_eq.trans (hkeys.trans h'.keys_eq.symm)

/-- Values for equal drafts are equal, to whatever depth and inside whatever pairs. -/
theorem equalWithin {x y : Value} (h : heap.Equates level x y) (depth : Nat)
    (entered : List (Ref × Ref)) : x.equalWithin heap depth entered y = true := by
  induction depth generalizing x y entered with
  | zero => rfl
  | succ depth ih =>
    obtain ⟨draft, draft', hx, hy, hequal⟩ := h
    cases hequal with
    | null => cases hx; cases hy; rfl
    | bool b => cases hx; cases hy; simp [Value.equalWithin]
    | number hxy => cases hx; cases hy; simpa [Value.equalWithin] using hxy
    | string s => cases hx; cases hy; simp [Value.equalWithin]
    | array hequal =>
      cases x with
      | array r =>
        cases y with
        | array s =>
          obtain ⟨hlength, hzip⟩ := List.forall₂_iff_zip.1 (items hx hy hequal)
          simp only [Value.equalWithin, hlength, beq_self_eq_true, Bool.true_and,
            Bool.or_eq_true, List.all_eq_true]
          exact .inr fun pair hpair => ih (hzip hpair) _
        | _ => cases hy
      | _ => cases hx
    | object hkeys hequal =>
      cases x with
      | object r =>
        cases y with
        | object s =>
          have hfields := fields hx hy hkeys hequal
          have hsize : (heap.fields r).size = (heap.fields s).size := hfields.length_eq
          simp only [Value.equalWithin, hsize, beq_self_eq_true, Bool.true_and,
            Bool.or_eq_true, List.all_eq_true]
          refine .inr fun ⟨name, part⟩ hentry => ?_
          -- The field of the other object under the same name is the one beside this.
          have hget := hfields.get?_rel name
          rw [show (heap.fields r).entries.get? name = some part from
            OrderedMap.get?_of_mem hentry] at hget
          unfold OrderedMap.get?
          generalize (heap.fields s).entries.get? name = other at hget ⊢
          cases hget with
          | some hparts => exact ih hparts _
        | _ => cases hy
      | _ => cases hx

end Equates

/-- **Values for equal drafts are equal.** -/
theorem Denotes.equal {draft draft' : Draft} {x y : Value} (hx : heap.Denotes level draft x)
    (hy : heap.Denotes level draft' y) (hequal : draft.Equal draft') : x.equal heap y = true :=
  Equates.equalWithin ⟨draft, draft', hx, hy, hequal⟩ _ _

end Heap

/-! ## Documents of documents -/

/-- Documents that stand for equal values. -/
def Json.Equal (json json' : Json) : Prop :=
  ∀ heap : Heap,
    let first := Value.ofJson json heap
    let second := Value.ofJson json' first.2
    Value.equal second.2 first.1 second.1 = true

theorem Json.Equal.of_draft {json json' : Json} (h : (Draft.ofJson json).Equal (.ofJson json')) :
    json.Equal json' := by
  intro heap first second
  obtain ⟨-, hfirst⟩ := HeapM.makes_ofJson json heap
  obtain ⟨hextends, hsecond⟩ := HeapM.makes_ofJson json' first.2
  exact (hfirst.mono hextends).equal hsecond h

end Conform
