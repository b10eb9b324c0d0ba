import Conform.Value.ToJson
import Conform.Proofs.Value.Entries
import Conform.Proofs.Value.Reach
import Conform.Proofs.Value.Whole

/-!
# The document of a value, path by path

A value that contains itself would have a document without an end.  So a container that is
met again inside itself is cut off: the document goes on along a path as long as the path
passes through no container twice.  What stands at the end of the path depends on the
containers above it and not on those beside it, and therefore a container that is merely
shared is written out in full wherever it occurs.

The document is computed to some depth.  The containers above are all different and in the
heap, so there is a depth that is never used up; with that depth to spare the equations of
the document mention none.

## Main definitions

* `Json.follow?`: what a path leads to in a document.
* `Value.toJsonInside`: the document of a value inside the containers above it.
* `Value.Blank`: the values that a document has nothing to show for.
* `Value.Shown`: a value and what a document shows of it.

## Main results

* `Value.toJsonWithin_congr`: neither the depth matters nor what cannot be reached.
* `Value.follow?_toJsonInside_iff`: where a path leads in the document.
* `Value.follow?_toJson`: where it leads, and what is there.
-/

namespace Conform

/-- Only finite doubles are integers. -/
theorem Number.isFinite_of_safeWhole {x : Float} {n : Int} (h : safeWhole? x = some n) :
    x.isFinite = true := by
  obtain ⟨hwhole, -⟩ := Option.filter_eq_some_iff.1 h
  change Float.Model.UnpackedFloat.isFinite x.toModel.unpack = true
  unfold whole? at hwhole
  split at hwhole
  · next hunpack => rw [hunpack]; rfl
  · next hunpack => rw [hunpack]; rfl
  · cases hwhole
  · cases hwhole

/-! ## Steps into a document -/

namespace Json

/-- The part of a document that one step leads to, if there is one. -/
def step? : Json → Accessor → Option Json
  | .object members, .key name => Entries.get? members name
  | .array items, .index i => items[i]?
  | _, _ => none

/-- What a path leads to in a document, if there is a part for each of its steps. -/
def follow? : Json → List Accessor → Option Json
  | json, [] => some json
  | json, accessor :: rest => (json.step? accessor).bind fun part => follow? part rest

@[simp] theorem step?_ofFloat (x : Float) (accessor : Accessor) :
    (ofFloat x).step? accessor = none := by
  unfold ofFloat
  split
  · rfl
  · split <;> rfl

/-- Only a double that is not finite has nothing to show. -/
theorem ofFloat_eq_null_iff {x : Float} : ofFloat x = .null ↔ x.isFinite = false := by
  constructor
  · intro hnull
    by_contra hfinite
    obtain ⟨n, hn, -⟩ := exists_ofFloat (Bool.not_eq_false _ ▸ hfinite)
    rw [hn] at hnull
    cases hnull
  · intro hinfinite
    unfold ofFloat
    split
    · next n hsafe => rw [Number.isFinite_of_safeWhole hsafe] at hinfinite; cases hinfinite
    · rw [hinfinite]
      rfl

end Json

namespace Value

variable {heap : Heap} {value part : Value} {accessor : Accessor} {path : List Accessor}
  {ref : Ref} {entered entered' : List Ref} {depth depth' : Nat} {json : Json}

/-! ## The document with depth to spare -/

/-- **Neither the depth matters**, as long as it exceeds the number of containers that are
left, **nor which containers are above that the value does not lead to.** -/
theorem toJsonWithin_congr (h : (heap.unseen entered).card + 1 < depth)
    (h' : (heap.unseen entered').card + 1 < depth')
    (hsame : ∀ ref, heap.Reachable value ref → (ref ∈ entered ↔ ref ∈ entered')) :
    value.toJsonWithin heap depth entered = value.toJsonWithin heap depth' entered' := by
  induction depth generalizing depth' entered entered' value with
  | zero => exact absurd h (Nat.not_lt_zero _)
  | succ depth ih =>
    obtain _ | depth' := depth'
    · exact absurd h' (Nat.not_lt_zero _)
    -- What a container of the heap holds is shown the same inside that container.
    have hpart : ∀ ref, value.ref? = some ref → ref ∉ entered → ∀ part ∈ heap.children ref,
        part.toJsonWithin heap depth (ref :: entered) =
          part.toJsonWithin heap depth' (ref :: entered') := by
      intro ref href hnew part hmem
      have hlt : ref < heap.size := Heap.lt_size_of_mem_children hmem
      have hnew' : ref ∉ entered' := fun hin => hnew ((hsame ref (.root href)).2 hin)
      have hless := Heap.card_unseen_cons_lt hlt hnew
      have hless' := Heap.card_unseen_cons_lt hlt hnew'
      refine ih (by omega) (by omega) fun other hother => ?_
      have hother' := hsame other (.of_child (.root href) hmem hother)
      rw [List.mem_cons, List.mem_cons, hother']
    cases value with
    | array ref =>
      simp only [toJsonWithin, hsame ref (.root rfl)]
      split
      · rfl
      · next hnew =>
        refine congrArg Json.array (List.map_congr_left fun part hmem => ?_)
        exact hpart ref rfl (fun hin => hnew ((hsame ref (.root rfl)).1 hin)) part
          (Heap.mem_children_of_mem_items hmem)
    | object ref =>
      simp only [toJsonWithin, hsame ref (.root rfl)]
      split
      · rfl
      · next hnew =>
        refine congrArg Json.object (List.map_congr_left fun entry hmem => ?_)
        rw [hpart ref rfl (fun hin => hnew ((hsame ref (.root rfl)).1 hin)) entry.2
          (Heap.mem_children_of_get? (OrderedMap.get?_of_mem hmem))]
    | _ => rfl

/-- The document of a value inside the containers above it. -/
def toJsonInside (heap : Heap) (entered : List Ref) (value : Value) : Json :=
  value.toJsonWithin heap (heap.size + 2) entered

theorem card_unseen_le (heap : Heap) (entered : List Ref) :
    (heap.unseen entered).card ≤ heap.size := by
  simpa [Heap.unseen] using Finset.card_le_card
    (Finset.sdiff_subset : heap.unseen entered ⊆ Finset.range heap.size)

@[simp] theorem toJsonInside_nil : value.toJsonInside heap [] = value.toJson heap := rfl

/-- Inside the containers above there is depth to spare, and less is needed inside another. -/
theorem toJsonWithin_eq_inside (hlt : ref < heap.size) (hnew : ref ∉ entered) (part : Value) :
    part.toJsonWithin heap (heap.size + 1) (ref :: entered) =
      part.toJsonInside heap (ref :: entered) := by
  have hall := card_unseen_le heap entered
  have hless := Heap.card_unseen_cons_lt hlt hnew
  exact toJsonWithin_congr (by omega) (by omega) fun _ _ => Iff.rfl

theorem toJsonInside_array (h : ref ∉ entered) :
    (Value.array ref).toJsonInside heap entered =
      .array ((heap.items ref).map (toJsonInside heap (ref :: entered))) := by
  simp only [toJsonInside, toJsonWithin, if_neg h]
  refine congrArg Json.array (List.map_congr_left fun part hmem => ?_)
  exact toJsonWithin_eq_inside (Heap.lt_size_of_mem_children
    (Heap.mem_children_of_mem_items hmem)) h part

theorem toJsonInside_object (h : ref ∉ entered) :
    (Value.object ref).toJsonInside heap entered =
      .object (Entries.mapValues (toJsonInside heap (ref :: entered))
        (heap.fields ref).entries) := by
  change (if ref ∈ entered then Json.null else .object (Entries.mapValues
    (toJsonWithin heap (heap.size + 1) (ref :: entered)) (heap.fields ref).entries)) = _
  rw [if_neg h]
  refine congrArg Json.object (List.map_congr_left fun entry hmem => ?_)
  rw [toJsonWithin_eq_inside (Heap.lt_size_of_mem_children
    (Heap.mem_children_of_get? (OrderedMap.get?_of_mem hmem))) h]

/-- Below itself a container is cut off. -/
theorem toJsonInside_of_mem (href : value.ref? = some ref) (h : ref ∈ entered) :
    value.toJsonInside heap entered = .null := by
  cases value with
  | array r =>
    obtain rfl := Option.some.inj href
    exact if_pos h
  | object r =>
    obtain rfl := Option.some.inj href
    exact if_pos h
  | _ => cases href

/-! ## Where a path leads -/

theorem step?_toJsonInside_of_ref?_none (h : value.ref? = none) :
    (value.toJsonInside heap entered).step? accessor = none := by
  cases value with
  | number x => exact Json.step?_ofFloat x accessor
  | array r => cases h
  | object r => cases h
  | _ => rfl

theorem step?_toJsonInside (href : value.ref? = some ref) (hnew : ref ∉ entered) :
    (value.toJsonInside heap entered).step? accessor =
      (heap.step? value accessor).map (toJsonInside heap (ref :: entered)) := by
  cases value with
  | array r =>
    obtain rfl := Option.some.inj href
    rw [toJsonInside_array hnew]
    cases accessor with
    | key name => rfl
    | index i => exact List.getElem?_map
  | object r =>
    obtain rfl := Option.some.inj href
    rw [toJsonInside_object hnew]
    cases accessor with
    | key name => exact Entries.get?_mapValues _ _ name
    | index i => rfl
  | _ => cases href

/-- A step into the document is a step into a container that is not above itself. -/
theorem step?_toJsonInside_iff :
    (value.toJsonInside heap entered).step? accessor = some json ↔
      ∃ ref part, value.ref? = some ref ∧ ref ∉ entered ∧ heap.step? value accessor = some part ∧
        part.toJsonInside heap (ref :: entered) = json := by
  constructor
  · intro h
    cases href : value.ref? with
    | none =>
      rw [step?_toJsonInside_of_ref?_none href] at h
      cases h
    | some ref =>
      by_cases hmem : ref ∈ entered
      · rw [toJsonInside_of_mem href hmem] at h
        cases h
      · rw [step?_toJsonInside href hmem] at h
        obtain ⟨part, hstep, hjson⟩ := Option.map_eq_some_iff.1 h
        exact ⟨ref, part, rfl, hmem, hstep, hjson⟩
  · rintro ⟨ref, part, href, hnew, hstep, rfl⟩
    rw [step?_toJsonInside href hnew, hstep]
    rfl

/-- **A path leads somewhere in the document** if it does in the value and passes through no
container twice, nor through one of those above.  Where it leads is the document of the part,
inside the containers that it has passed through. -/
theorem follow?_toJsonInside_iff (hentered : entered.Nodup) :
    (value.toJsonInside heap entered).follow? path = some json ↔
      ∃ part, heap.follow? value path = some part ∧
        ((heap.passed value path).reverse ++ entered).Nodup ∧
        part.toJsonInside heap ((heap.passed value path).reverse ++ entered) = json := by
  induction path generalizing value entered with
  | nil =>
    constructor
    · intro h
      exact ⟨value, rfl, by simpa [Heap.passed] using hentered, Option.some.inj h⟩
    · rintro ⟨part, hpart, -, rfl⟩
      obtain rfl := Option.some.inj hpart
      rfl
  | cons accessor rest ih =>
    -- The containers that are passed through come to stand above one by one.
    have hpassed : ∀ ref part, value.ref? = some ref → heap.step? value accessor = some part →
        (heap.passed value (accessor :: rest)).reverse ++ entered =
          (heap.passed part rest).reverse ++ ref :: entered := by
      intro ref part href hstep
      simp [Heap.passed, href, hstep]
    constructor
    · intro h
      obtain ⟨inner, hinner, hrest⟩ := Option.bind_eq_some_iff.1 h
      obtain ⟨ref, next, href, hnew, hstep, rfl⟩ := step?_toJsonInside_iff.1 hinner
      obtain ⟨part, hpart, hnodup, hjson⟩ := (ih (List.nodup_cons.2 ⟨hnew, hentered⟩)).1 hrest
      rw [hpassed ref next href hstep]
      exact ⟨part, Option.bind_eq_some_iff.2 ⟨next, hstep, hpart⟩, hnodup, hjson⟩
    · rintro ⟨part, hpart, hnodup, hjson⟩
      obtain ⟨next, hstep, hrest⟩ := Option.bind_eq_some_iff.1 hpart
      obtain ⟨ref, href, -, -⟩ := Heap.exists_of_step? hstep
      rw [hpassed ref next href hstep] at hnodup hjson
      have hcons : (ref :: entered).Nodup := (List.nodup_append.1 hnodup).2.1
      have hinner := step?_toJsonInside_iff.2
        ⟨ref, next, href, (List.nodup_cons.1 hcons).1, hstep, rfl⟩
      exact Option.bind_eq_some_iff.2
        ⟨_, hinner, (ih hcons).2 ⟨part, hrest, hnodup, hjson⟩⟩

/-! ## What is there -/

/-- The values that a document has nothing to show for, inside the containers above: null,
functions, numbers that are not finite, and the containers above themselves. -/
inductive Blank (entered : List Ref) : Value → Prop where
  | null : Blank entered .null
  | function (ref : FunctionRef) : Blank entered (.function ref)
  | number {x : Float} : x.isFinite = false → Blank entered (.number x)
  | container {value : Value} {ref : Ref} :
      value.ref? = some ref → ref ∈ entered → Blank entered value

theorem Blank.mono (hsub : entered ⊆ entered') (h : value.Blank entered) :
    value.Blank entered' := by
  cases h with
  | null => exact .null
  | function ref => exact .function ref
  | number hx => exact .number hx
  | container href hmem => exact .container href (hsub hmem)

/-- What a document shows of a value: the same scalar, with a number that equals the double
and a timestamp for a moment; an array of the same length; an object with the same keys in
the same order. -/
inductive Shown (heap : Heap) : Value → Json → Prop where
  | bool (b : Bool) : Shown heap (.bool b) (.bool b)
  | number {x : Float} {n : Json.Number} :
      (x == n.toFloat) = true → Shown heap (.number x) (.number n)
  | string (s : String) : Shown heap (.string s) (.string s)
  | dateTime (moment : DateTime) : Shown heap (.dateTime moment) (.string (Rfc3339.write moment))
  | array {ref : Ref} {items : List Json} :
      items.length = (heap.items ref).length → Shown heap (.array ref) (.array items)
  | object {ref : Ref} {members : Entries Json} :
      members.keys = (heap.fields ref).keys → Shown heap (.object ref) (.object members)

/-- What is blank is null in the document, and all else is shown. -/
theorem blank_or_shown (heap : Heap) (entered : List Ref) (value : Value) :
    value.Blank entered ∧ value.toJsonInside heap entered = .null ∨
      ¬ value.Blank entered ∧ value.Shown heap (value.toJsonInside heap entered) := by
  have hcontainer : ∀ ref, value.ref? = some ref → ref ∉ entered → ¬ value.Blank entered := by
    rintro ref href hnew (_ | _ | _ | ⟨href', hmem⟩)
    · cases href
    · cases href
    · cases href
    · obtain rfl := Option.some.inj (href.symm.trans href')
      exact hnew hmem
  cases value with
  | null => exact .inl ⟨.null, rfl⟩
  | bool b => exact .inr ⟨nofun, .bool b⟩
  | number x =>
    cases hfinite : x.isFinite with
    | false => exact .inl ⟨.number hfinite, Json.ofFloat_eq_null_iff.2 hfinite⟩
    | true =>
      obtain ⟨n, hn, heq⟩ := Json.exists_ofFloat hfinite
      refine .inr ⟨?_, ?_⟩
      · rintro (_ | _ | hinfinite | ⟨href, -⟩)
        · rw [hfinite] at hinfinite; cases hinfinite
        · cases href
      · change Shown heap (.number x) (Json.ofFloat x)
        rw [hn]
        exact .number heq
  | string s => exact .inr ⟨nofun, .string s⟩
  | dateTime moment => exact .inr ⟨nofun, .dateTime moment⟩
  | array ref =>
    by_cases hmem : ref ∈ entered
    · exact .inl ⟨.container rfl hmem, toJsonInside_of_mem rfl hmem⟩
    · refine .inr ⟨hcontainer ref rfl hmem, ?_⟩
      rw [toJsonInside_array hmem]
      exact .array (List.length_map _)
  | object ref =>
    by_cases hmem : ref ∈ entered
    · exact .inl ⟨.container rfl hmem, toJsonInside_of_mem rfl hmem⟩
    · refine .inr ⟨hcontainer ref rfl hmem, ?_⟩
      rw [toJsonInside_object hmem]
      exact .object (Entries.keys_mapValues _ _)
  | function ref => exact .inl ⟨.function ref, rfl⟩

theorem Shown.ne_null (h : value.Shown heap json) : json ≠ .null := by
  cases h <;> nofun

/-- **The document of a value, path by path.**  A path leads somewhere in the document if it
does in the value and passes through no container twice.  Null stands there if the value is
null, a function, a number that is not finite or a container that the path has passed through,
and for nothing else; all else has its kind, scalar, length and keys.  A part from which no
container above it can be reached has its own document, wherever it occurs.  More depth
changes nothing. -/
theorem follow?_toJson (heap : Heap) (value : Value) :
    (∀ path, ((value.toJson heap).follow? path).isSome ↔
      (heap.follow? value path).isSome ∧ (heap.passed value path).Nodup) ∧
    (∀ path part json, heap.follow? value path = some part →
      (value.toJson heap).follow? path = some json →
      (json = .null ↔ part.Blank (heap.passed value path)) ∧
        (json ≠ .null → part.Shown heap json)) ∧
    (∀ path part, heap.follow? value path = some part → (heap.passed value path).Nodup →
      (∀ ref ∈ heap.passed value path, ¬ heap.Reachable part ref) →
      (value.toJson heap).follow? path = some (part.toJson heap)) ∧
    ∀ depth, heap.size + 2 ≤ depth → value.toJsonWithin heap depth [] = value.toJson heap := by
  have hinside : ∀ path json, (value.toJson heap).follow? path = some json ↔
      ∃ part, heap.follow? value path = some part ∧ (heap.passed value path).Nodup ∧
        part.toJsonInside heap (heap.passed value path).reverse = json := by
    intro path json
    have hnil := @follow?_toJsonInside_iff heap value path [] json List.nodup_nil
    simpa using hnil
  refine ⟨fun path => ?_, fun path part json hpart hjson => ?_, ?_, ?_⟩
  · rw [Option.isSome_iff_exists, Option.isSome_iff_exists]
    constructor
    · rintro ⟨json, hjson⟩
      obtain ⟨part, hpart, hnodup, -⟩ := (hinside path json).1 hjson
      exact ⟨⟨part, hpart⟩, hnodup⟩
    · rintro ⟨⟨part, hpart⟩, hnodup⟩
      exact ⟨_, (hinside path _).2 ⟨part, hpart, hnodup, rfl⟩⟩
  · obtain ⟨part', hpart', -, rfl⟩ := (hinside path json).1 hjson
    obtain rfl := Option.some.inj (hpart'.symm.trans hpart)
    rcases blank_or_shown heap (heap.passed value path).reverse part' with
      ⟨hblank, hnull⟩ | ⟨hnot, hshown⟩
    · exact ⟨iff_of_true hnull (hblank.mono (List.reverse_subset.2 (List.Subset.refl _))),
        fun hne => absurd hnull hne⟩
    · have hnot' : ¬ part'.Blank (heap.passed value path) := fun hblank =>
        hnot (hblank.mono (List.subset_reverse.2 (List.Subset.refl _)))
      exact ⟨iff_of_false hshown.ne_null hnot', fun _ => hshown⟩
  · intro path part hpart hnodup hapart
    refine (hinside path _).2 ⟨part, hpart, hnodup, ?_⟩
    -- Nothing above can be met again, so that it is as if there were nothing above.
    have hall := card_unseen_le heap (heap.passed value path).reverse
    have hnone := card_unseen_le heap []
    refine toJsonWithin_congr (by omega) (by omega) fun ref href => ?_
    refine iff_of_false (fun hmem => ?_) List.not_mem_nil
    exact hapart ref (List.mem_reverse.1 hmem) href
  · intro depth hdepth
    have hnone := card_unseen_le heap []
    exact toJsonWithin_congr (by omega) (by omega) fun _ _ => Iff.rfl

/-- An array that holds an object twice, and itself: the object is written out twice, and
nothing stands below the null that stands for the array. -/
theorem follow?_toJson_shared :
    let heap : Heap := { containers := #[
      .array [.object 1, .object 1, .array 0],
      .object (.ofList [("on", .bool true)])] }
    let json := (Value.array 0).toJson heap
    json.follow? [.index 0] = some ((Value.object 1).toJson heap) ∧
      json.follow? [.index 1] = some ((Value.object 1).toJson heap) ∧
      json.follow? [.index 2] = some .null ∧ json.follow? [.index 2, .index 0] = none := by
  intro heap json
  obtain ⟨hthere, hshown, hshared, -⟩ := follow?_toJson heap (.array 0)
  have hapart : ∀ ref ∈ [0], ¬ heap.Reachable (.object 1) ref := by
    simp only [← Heap.mem_reach_iff]
    decide
  refine ⟨hshared [.index 0] (.object 1) rfl (by decide) hapart,
    hshared [.index 1] (.object 1) rfl (by decide) hapart, ?_, ?_⟩
  · obtain ⟨inner, hinner⟩ := Option.isSome_iff_exists.1 ((hthere [.index 2]).2 (by decide))
    have hblank := (hshown [.index 2] (.array 0) inner rfl hinner).1
    rw [hinner, hblank.2 (.container rfl (by decide))]
  · have htwice : ¬ (heap.passed (.array 0) [.index 2, .index 0]).Nodup := by decide
    exact Option.not_isSome_iff_eq_none.1 fun h => htwice ((hthere _).1 h).2

end Value

end Conform
