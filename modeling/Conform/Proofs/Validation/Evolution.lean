import Conform.Proofs.Validation.Frame
import Conform.Proofs.Validation.Regime

/-!
# What a check does to what was there

A check fills in defaults and puts moments in the place of what encodes them, and it does
so in the containers that it is given, also when it finds violations or comes to a fault in
the middle.  Where the program around the library brings in no defaults and transforms of
its own, this is all that it does.  Arrays keep their length.  Objects keep their keys in
order and get new ones at the end, none of them for null.  In a slot, numbers and texts
give way to moments alone, null to anything, and all else stays.  What the value does not
lead to is left as it was.

Slots are compared with what they held in the beginning, however often they have been
written in between.  So it does not matter in which order a container is reached again by
aliases and cycles and by second runs of alternatives.

## Main definitions

* `Value.Becomes`: what a value may become.
* `Container.Evolves`: what may become of a container.
* `Regime.evolving`: containers have evolved since the beginning.

## Main results

* `check_evolves`: a check leaves containers evolved, and those out of reach unchanged.
-/

namespace Conform

variable {σ : Type}

/-! ## Values -/

/-- What a value may become: null anything, a number or a text a moment, and all else only
itself. -/
inductive Value.Becomes : Value → Value → Prop where
  | same {value : Value} : Becomes value value
  | number {x : Float} {moment : DateTime} : Becomes (.number x) (.dateTime moment)
  | string {text : String} {moment : DateTime} : Becomes (.string text) (.dateTime moment)
  | null {value : Value} : Becomes .null value

namespace Value.Becomes

variable {u v w : Value}

theorem trans (h : Becomes u v) (h' : Becomes v w) : Becomes u w := by
  cases h with
  | same => exact h'
  | number => cases h'; exact .number
  | string => cases h'; exact .string
  | null => exact .null

/-- A container stays what it is. -/
theorem eq_of_ref? {ref : Ref} (h : Becomes v w) (href : v.ref? = some ref) : w = v := by
  cases h with
  | same => rfl
  | _ => cases href

/-- What is there does not become null. -/
theorem ne_null (h : Becomes v w) (hv : v ≠ .null) : w ≠ .null := by
  cases h with
  | same => exact hv
  | null => exact absurd rfl hv
  | _ => nofun

theorem of_moment? {moment : DateTime} (h : Check.moment? v = some moment) :
    Becomes v (.dateTime moment) := by
  cases v with
  | number x => exact .number
  | string text => exact .string
  | dateTime moment' => cases h; exact .same
  | _ => cases h

end Value.Becomes

/-! ## Containers -/

/-- What may become of a container: an array keeps its length, an object its keys in order,
after which there may be new ones for what is not null. -/
inductive Container.Evolves : Container → Container → Prop where
  | array {xs ys : List Value} : List.Forall₂ Value.Becomes xs ys → Evolves (.array xs) (.array ys)
  | object {xs ys : OrderedMap Value} {kept added : Entries Value} : ys.entries = kept ++ added →
      List.Forall₂ (fun x y => x.1 = y.1 ∧ x.2.Becomes y.2) xs.entries kept →
      (∀ entry ∈ added, entry.2 ≠ .null) → Evolves (.object xs) (.object ys)

namespace Entries

variable {xs kept added : Entries Value} {name : String} {value : Value}

/-- What an evolved object holds under a name has become of what it held, or is new and
not null; and what it held it holds. -/
theorem get?_of_becomes (h : List.Forall₂ (fun x y => x.1 = y.1 ∧ x.2.Becomes y.2) xs kept)
    (hadded : ∀ entry ∈ added, entry.2 ≠ .null) (name : String) :
    (∀ part, get? (kept ++ added) name = some part →
      (∃ before, xs.get? name = some before ∧ before.Becomes part) ∨
        xs.get? name = none ∧ part ≠ .null) ∧
      (get? (kept ++ added) name = none → xs.get? name = none) := by
  induction h with
  | nil => exact ⟨fun part hpart => .inr ⟨rfl, hadded _ (mem_of_get? hpart)⟩, fun _ => rfl⟩
  | @cons x y xs kept hxy _ ih =>
    obtain ⟨hkey, hvalue⟩ := hxy
    by_cases hx : x.1 = name
    · simp only [List.cons_append, get?, hx, ← hkey, if_true]
      exact ⟨fun part hpart => .inl ⟨x.2, rfl, Option.some.inj hpart ▸ hvalue⟩, by simp⟩
    · simp only [List.cons_append, get?, hx, ← hkey, if_false]
      exact ih

/-- Where a fitting value is inserted, the kept entries stay kept and the new ones new. -/
theorem insert_of_becomes (h : List.Forall₂ (fun x y => x.1 = y.1 ∧ x.2.Becomes y.2) xs kept)
    (hadded : ∀ entry ∈ added, entry.2 ≠ .null)
    (hbefore : ∀ before, xs.get? name = some before → before.Becomes value)
    (hnew : xs.get? name = none → value ≠ .null) :
    ∃ kept' added', insert (kept ++ added) name value = kept' ++ added' ∧
      List.Forall₂ (fun x y => x.1 = y.1 ∧ x.2.Becomes y.2) xs kept' ∧
      ∀ entry ∈ added', entry.2 ≠ .null := by
  induction h with
  | nil =>
    refine ⟨[], added.insert name value, rfl, .nil, ?_⟩
    have hvalue := hnew rfl
    clear hnew hbefore
    induction added with
    | nil =>
      rintro entry hentry
      obtain rfl := List.mem_singleton.1 hentry
      exact hvalue
    | cons first rest ih =>
      obtain ⟨hfirst, hrest⟩ := List.forall_mem_cons.1 hadded
      by_cases heq : first.1 = name
      · simp only [insert, heq, if_true]
        exact List.forall_mem_cons.2 ⟨hvalue, hrest⟩
      · simp only [insert, heq, if_false]
        exact List.forall_mem_cons.2 ⟨hfirst, ih hrest⟩
  | @cons x y xs kept hxy hrest ih =>
    obtain ⟨hkey, hvalue⟩ := hxy
    by_cases hx : x.1 = name
    · simp only [get?, hx, if_true] at hbefore
      refine ⟨(name, value) :: kept, added, ?_, .cons ⟨hx, hbefore _ rfl⟩ hrest, hadded⟩
      simp only [List.cons_append, insert, hx, ← hkey, if_true]
    · simp only [get?, hx, if_false] at hbefore hnew
      obtain ⟨kept', added', hinsert, hkept, hadded'⟩ := ih hbefore hnew
      refine ⟨y :: kept', added', ?_, .cons ⟨hkey, hvalue⟩ hkept, hadded'⟩
      simp only [List.cons_append, insert, if_neg (hkey ▸ hx : y.1 ≠ name), hinsert]

end Entries

namespace Container

variable {c : Container} {part value : Value}

/-- A field inserted brings in its value alone. -/
theorem mem_children_insert {name : String}
    (h : part ∈ (c.mapFields (·.insert name value)).children) :
    part = value ∨ part ∈ c.children := by
  cases c with
  | array items => exact .inr h
  | object fields =>
    obtain ⟨entry, hentry, rfl⟩ := List.mem_map.1 h
    have hget : (fields.insert name value).get? entry.1 = some entry.2 :=
      OrderedMap.get?_of_mem hentry
    rw [OrderedMap.get?_insert] at hget
    split at hget
    · exact .inl (Option.some.inj hget).symm
    · exact .inr (List.mem_map_of_mem (OrderedMap.mem_of_get? hget))

/-- An item replaced brings in its value alone. -/
theorem mem_children_set {i : Nat} (h : part ∈ (c.mapItems (·.set i value)).children) :
    part = value ∨ part ∈ c.children := by
  cases c with
  | array items => exact (List.mem_or_eq_of_mem_set h).symm
  | object fields => exact .inr h

end Container

namespace Container.Evolves

variable {c d : Container} {value : Value}

theorem refl (c : Container) : Evolves c c := by
  cases c with
  | array items => exact .array (List.forall₂_same.2 fun _ _ => .same)
  | object fields =>
    exact .object (List.append_nil _).symm (List.forall₂_same.2 fun _ _ => ⟨rfl, .same⟩) nofun

theorem items (h : Evolves c d) : List.Forall₂ Value.Becomes c.items d.items := by
  cases h with
  | array hitems => exact hitems
  | object => exact .nil

/-- What stands in a slot has become of what stood there, or is new and not null. -/
theorem get?_fields (h : Evolves c d) (name : String) :
    (∀ part, d.fields.get? name = some part →
      (∃ before, c.fields.get? name = some before ∧ before.Becomes part) ∨
        c.fields.get? name = none ∧ part ≠ .null) ∧
      (d.fields.get? name = none → c.fields.get? name = none) := by
  cases h with
  | array => exact ⟨nofun, fun _ => rfl⟩
  | object hentries hkept hadded =>
    have hget := Entries.get?_of_becomes hkept hadded name
    rwa [← hentries] at hget

theorem setItem (h : Evolves c d) {i : Nat}
    (hbefore : ∀ before, c.items[i]? = some before → before.Becomes value) :
    Evolves c (d.mapItems (·.set i value)) := by
  cases h with
  | array hitems =>
    refine .array (List.forall₂_iff_get.2 ⟨by rw [List.length_set, hitems.length_eq], ?_⟩)
    intro j hj hj'
    simp only [List.get_eq_getElem, List.getElem_set]
    split
    · next heq =>
      subst heq
      exact hbefore _ (List.getElem?_eq_getElem hj)
    · exact hitems.get hj (by rwa [List.length_set] at hj')
  | object hentries hkept hadded => exact .object hentries hkept hadded

theorem insertField (h : Evolves c d) {name : String}
    (hbefore : ∀ before, c.fields.get? name = some before → before.Becomes value)
    (hnew : c.fields.get? name = none → value ≠ .null) :
    Evolves c (d.mapFields (·.insert name value)) := by
  cases h with
  | array hitems => exact .array hitems
  | @object xs ys kept added hentries hkept hadded =>
    obtain ⟨kept', added', hinsert, hkept', hadded'⟩ :=
      Entries.insert_of_becomes hkept hadded hbefore hnew
    refine .object (?_ : ys.entries.insert name value = _) hkept' hadded'
    rw [hentries, hinsert]

end Container.Evolves

/-! ## The regime -/

/-- What is out of reach is as it was, and every container has evolved. -/
def Heap.Evolved (base : Heap) (value : Value) (heap : Heap) : Prop :=
  (Invariant.territory base (base.Touchable value)).holds .still heap ∧
    ∀ ref, ref < base.size → (base.fetch ref).Evolves (heap.fetch ref)

/-- A value fits in a slot if what stood there in the beginning may become it; if nothing
did, it fits unless it is null. -/
def Heap.Fits (base : Heap) (container : Value) (accessor : Accessor) (value : Value) : Prop :=
  (∀ ref, container.ref? = some ref → ref < base.size) →
    (∀ before, base.step? container accessor = some before → before.Becomes value) ∧
      (base.step? container accessor = none → value ≠ .null)

namespace Heap

variable {base heap : Heap} {value container part : Value} {accessor : Accessor}

theorem evolved_self (base : Heap) (value : Value) : base.Evolved value base :=
  ⟨Invariant.holds_touchable_self base value, fun _ _ => .refl _⟩

/-- What has become of a part fits where the part stands. -/
theorem Evolved.fits_of_step? (h : base.Evolved value heap)
    (hstep : heap.step? container accessor = some part) {result : Value}
    (hresult : part.Becomes result) : base.Fits container accessor result := by
  intro hlt
  obtain ⟨ref, name, rfl, rfl, hget⟩ | ⟨ref, i, rfl, rfl, hget⟩ := step?_cases hstep
  · change (∀ before, (base.fetch ref).fields.get? name = some before → _) ∧
      ((base.fetch ref).fields.get? name = none → _)
    rcases ((h.2 ref (hlt ref rfl)).get?_fields name).1 part hget with
      ⟨before, hbefore, hbecomes⟩ | ⟨hnone, hpart⟩
    · rw [hbefore]
      refine ⟨fun _ heq => ?_, nofun⟩
      exact Option.some.inj heq ▸ hbecomes.trans hresult
    · rw [hnone]
      exact ⟨nofun, fun _ => hresult.ne_null hpart⟩
  · have hitems := (h.2 ref (hlt ref rfl)).items
    obtain ⟨hi', rfl⟩ := List.getElem?_eq_some_iff.1 hget
    have hi : i < (base.fetch ref).items.length := hitems.length_eq ▸ hi'
    change (∀ before, (base.fetch ref).items[i]? = some before → _) ∧
      ((base.fetch ref).items[i]? = none → _)
    rw [List.getElem?_eq_getElem hi]
    refine ⟨fun _ heq => ?_, nofun⟩
    exact Option.some.inj heq ▸ (hitems.get hi hi').trans hresult

/-- Anything but null fits where nothing stands. -/
theorem Evolved.fits_of_missing (h : base.Evolved value heap)
    (hstep : heap.step? container accessor = none) {result : Value} (hresult : result ≠ .null) :
    base.Fits container accessor result := by
  refine fun hlt => ⟨fun before hbefore => ?_, fun _ => hresult⟩
  -- Nothing that stood somewhere in the beginning has gone away.
  obtain ⟨ref, name, rfl, rfl, hget⟩ | ⟨ref, i, rfl, rfl, hget⟩ := step?_cases hbefore
  · have hnone := ((h.2 ref (hlt ref rfl)).get?_fields name).2 hstep
    rw [show (base.fetch ref).fields.get? name = some before from hget] at hnone
    cases hnone
  · have hlength := (h.2 ref (hlt ref rfl)).items.length_eq
    have hout : (heap.fetch ref).items.length ≤ i := List.getElem?_eq_none_iff.1 hstep
    obtain ⟨hi, -⟩ := List.getElem?_eq_some_iff.1 hget
    exact absurd (hlength ▸ hi) (Nat.not_lt.2 hout)

/-- A store that lets a touchable container evolve. -/
theorem Evolved.store (h : base.Evolved value heap) {ref : Ref} {container : Container}
    (href : base.Touchable value ref)
    (hparts : ∀ part ∈ container.children, ∀ child, part.ref? = some child →
      base.Touchable value child)
    (hevolves : ref < base.size → (base.fetch ref).Evolves container) :
    base.Evolved value (heap.store ref container) := by
  refine ⟨(Invariant.territory base (base.Touchable value)).store h.1 href hparts,
    fun other hlt => ?_⟩
  rw [fetch_store]
  split
  · next heq =>
    obtain ⟨rfl, -⟩ := heq
    exact hevolves hlt
  · exact h.2 other hlt

/-- Where a fitting value is written, the container evolves. -/
theorem Evolved.set? (h : base.Evolved value heap)
    (hcontainer : ∀ ref, container.ref? = some ref → base.Touchable value ref)
    (hpart : ∀ ref, part.ref? = some ref → base.Touchable value ref)
    (hfits : base.Fits container accessor part) {heap' : Heap}
    (hset : heap.set? container accessor part = some heap') : base.Evolved value heap' := by
  have hchildren : ∀ ref, base.Touchable value ref → ∀ other ∈ (heap.fetch ref).children,
      ∀ child, other.ref? = some child → base.Touchable value child :=
    fun ref href other hother child hchild => h.1.2.2 ref child href ⟨other, hother, hchild⟩
  unfold Heap.set? at hset
  split at hset
  · next ref name =>
    obtain rfl := Option.some.inj hset
    rw [insertField_eq_store]
    refine h.store (hcontainer ref rfl) (fun other hother => ?_) fun hlt => ?_
    · rcases Container.mem_children_insert hother with rfl | hother
      · exact hpart
      · exact hchildren ref (hcontainer ref rfl) other hother
    · obtain ⟨hbefore, hnew⟩ := hfits fun _ heq => Option.some.inj heq ▸ hlt
      exact (h.2 ref hlt).insertField hbefore hnew
  · next ref i =>
    split at hset
    · obtain rfl := Option.some.inj hset
      rw [setItem_eq_store]
      refine h.store (hcontainer ref rfl) (fun other hother => ?_) fun hlt => ?_
      · rcases Container.mem_children_set hother with rfl | hother
        · exact hpart
        · exact hchildren ref (hcontainer ref rfl) other hother
      · exact (h.2 ref hlt).setItem (hfits fun _ heq => Option.some.inj heq ▸ hlt).1
    · cases hset
  · cases hset

theorem Evolved.copy (h : base.Evolved value heap) (copied : Value) :
    base.Evolved value (copied.copyWithOrigins heap).2 := by
  refine ⟨(Invariant.territory_copy (fun _ => .inr) h.1 copied).1, fun ref hlt => ?_⟩
  rw [Value.fetch_copyWithOrigins_of_lt copied heap (Nat.lt_of_lt_of_le hlt h.1.1)]
  exact h.2 ref hlt

/-- The contents of a document are new. -/
theorem Evolved.ofJson (h : base.Evolved value heap) (json : Json) :
    base.Evolved value (Value.ofJson json heap).2 ∧
      ∀ ref, (Value.ofJson json heap).1.ref? = some ref → base.Touchable value ref := by
  have hlocal := Run.local_literal (default : Host Unit) json
  have hnull : (Invariant.territory base (base.Touchable value)).Owns .still .null := .scalar rfl
  obtain ⟨hterritory, howns⟩ := Invariant.territory_local (fun _ => .inr) hlocal hnull
    (show _ from h.1 : (Invariant.territory base _).holds .still (World.mk heap ()).heap)
  refine ⟨⟨hterritory, fun ref hlt => ?_⟩, howns _ rfl⟩
  have hsame := hlocal.touches ⟨heap, ()⟩ ref (Nat.lt_of_lt_of_le hlt h.1.1)
    (not_reachable_of_ref?_none rfl ref)
  have hevolves := h.2 ref hlt
  rwa [← hsame] at hevolves

end Heap

/-- Containers have evolved since the beginning, whatever fault there may be. -/
def Regime.evolving (base : Heap) (value : Value) : Regime where
  terms := ⟨base.Evolved value, fun _ => True⟩
  owns := fun v => ∀ ref, v.ref? = some ref → base.Touchable value ref
  becomes := Value.Becomes
  fits := base.Fits
  refl := fun _ => .same
  trans := .trans
  null := fun _ => .null
  moment := .of_moment?
  scalar := by
    intro v hnone ref href
    rw [hnone] at href
    cases href
  read := by
    intro heap container part _ hevolved howns hstep
    refine ⟨fun child hchild => ?_, fun _ hresult => hevolved.fits_of_step? hstep hresult⟩
    obtain ⟨ref, href, hpart⟩ := Heap.mem_children_of_step? hstep
    exact hevolved.1.2.2 ref child (howns ref href) ⟨part, hpart, hchild⟩
  missing := fun _ hevolved _ hstep hvalue => hevolved.fits_of_missing hstep hvalue
  write := fun _ hevolved hcontainer hpart hfits hset => hevolved.set? hcontainer hpart hfits hset
  copy := fun hevolved _ =>
    ⟨hevolved.copy _, (Invariant.territory_copy (fun _ => .inr) hevolved.1 _).2⟩

/-! ## Definitions -/

/-- A definition with no default and no transform of the program around the library. -/
def Definition.Unaided : Definition → Prop
  | .node keywords => (∀ code, keywords.fallback ≠ some (.produced code)) ∧
    ∀ code, keywords.custom ≠ some (.host code)
  | _ => True

/-- Repeatable definitions are unaided, in particular those read from documents. -/
theorem Definition.Repeatable.unaided {host : Host σ} {definition : Definition}
    (h : definition.Repeatable host) : definition.Unaided := by
  cases definition with
  | shorthand type => trivial
  | deferred thunk => trivial
  | node keywords =>
    refine ⟨fun code => h.fallback keywords code rfl, fun code hcustom => ?_⟩
    rw [h.custom keywords rfl] at hcustom
    cases hcustom

theorem Regime.permits_evolving {host : Host σ} {base : Heap} {value : Value}
    {definition : Definition} (h : definition.Unaided) :
    (evolving base value).Permits host definition := by
  cases definition with
  | shorthand type => trivial
  | deferred thunk => trivial
  | node keywords =>
    refine ⟨fun fallback hfallback world hevolved => ?_,
      fun transform hcustom v world howns hevolved => ?_⟩
    · cases fallback with
      | literal json => exact Heap.Evolved.ofJson hevolved json
      | produced code => exact absurd hfallback (h.1 code)
    · cases transform with
      | host code => exact absurd hcustom (h.2 code)
      | nonEmpty =>
        rw [Transform.world_nonEmpty]
        refine ⟨hevolved, fun result hresult => ?_⟩
        obtain rfl := Transform.eq_of_nonEmpty hresult
        exact ⟨howns, .same⟩

/-! ## Whole checks -/

section Whole

variable (host : Host σ) (options : Options) (value : Value) (definition : Definition)
  (world : World σ) (hdefinition : definition.Throughout host Definition.Unaided)
include hdefinition

/-- A check ends as evolution has it. -/
theorem Regime.ends_evolving :
    (evolving world.heap value).terms.Ends (.start options) []
      ((evolving world.heap value).Makes value)
      (checkWithin host (nestingBound world.heap definition) value definition
        ⟨.start options, world⟩) := by
  let R : Regime := .evolving world.heap value
  have hadmits : R.Admits (.start options) := fun _ _ => trivial
  have hvalue : R.owns value := fun ref href => .inl (.root href)
  exact R.ensures_checkWithin (fun _ _ => trivial) host _ (fun _ => Regime.permits_evolving)
    (nestingBound world.heap definition) (.start options) value definition hadmits hvalue
    hdefinition [] world (world.heap.evolved_self value)

/-- What was there has evolved in a check. -/
theorem Heap.evolved_check :
    world.heap.Evolved value (check host options value definition world).2.heap := by
  have hworld : (check host options value definition world).2 =
      (Check.final (checkWithin host (nestingBound world.heap definition) value definition
        ⟨.start options, world⟩)).world := by
    unfold check
    cases checkWithin host (nestingBound world.heap definition) value definition
      ⟨.start options, world⟩ <;> rfl
  rw [hworld]
  exact (Regime.ends_evolving host options value definition world hdefinition).holds_final

/-- What the value does not lead to is as it was. -/
theorem Heap.fetch_check {ref : Ref} (hlt : ref < world.heap.size)
    (hout : ¬ world.heap.Reachable value ref) :
    (check host options value definition world).2.heap.fetch ref = world.heap.fetch ref := by
  refine (Heap.evolved_check host options value definition world hdefinition).1.2.1 ref hlt ?_
  rintro (h | hle)
  · exact hout h
  · exact Nat.not_lt.2 hle hlt

end Whole

/-- **What a check does to what was there**, however it ends: what the value does not lead
to is as it was; arrays have kept their length, and objects their keys in order, with new
ones for what is not null after them; in every slot stands what stood there, or a moment
for a number or a text, or anything for null.  A container that is checked is given back
itself. -/
theorem check_evolves (host : Host σ) (options : Options) (value : Value)
    (definition : Definition) (world : World σ)
    (hdefinition : definition.Throughout host Definition.Unaided) :
    (∀ ref, ref < world.heap.size → ¬ world.heap.Reachable value ref →
      (check host options value definition world).2.heap.fetch ref = world.heap.fetch ref) ∧
    (∀ ref, ref < world.heap.size → (world.heap.fetch ref).Evolves
      ((check host options value definition world).2.heap.fetch ref)) ∧
    ∀ outcome, (check host options value definition world).1 = .ok outcome →
      value.Becomes outcome.value ∧
        ∀ ref, value.ref? = some ref → outcome.value = value := by
  let R : Regime := .evolving world.heap value
  have hends := Regime.ends_evolving host options value definition world hdefinition
  have hevolved := Heap.evolved_check host options value definition world hdefinition
  refine ⟨fun ref hlt hreach =>
    Heap.fetch_check host options value definition world hdefinition hlt hreach, hevolved.2,
    fun outcome houtcome => ?_⟩
  · have hbecomes : value.Becomes outcome.value := by
      unfold check at houtcome
      revert hends houtcome
      change R.terms.Ends (.start options) [] (R.Makes value)
        (checkWithin host (nestingBound world.heap definition) value definition
          ⟨.start options, world⟩) → _
      generalize checkWithin host (nestingBound world.heap definition) value definition
        ⟨.start options, world⟩ = r
      intro hends houtcome
      cases hends with
      | ok _ hmakes =>
        obtain rfl := Except.ok.inj houtcome
        exact hmakes.2
      | error => cases houtcome
    exact ⟨hbecomes, fun ref href => hbecomes.eq_of_ref? href⟩

/-- An object that holds itself, in which a default is filled in before the check stops at
its first violation; another object is out of reach. -/
theorem check_evolves_stopped :
    let filled : Definition := .node { fallback := some (.literal (.bool true)) }
    let definition : Definition :=
      .node { schema := some (.declared [("size", filled), ("self", .shorthand .number)]) }
    let world : World Unit :=
      ⟨{ containers := #[.object (.ofList [("self", .object 0)]), .object .empty] }, ()⟩
    let run := check default { assert := true } (.object 0) definition world
    run.1.toOption.isNone ∧ (run.2.heap.fields 0).keys = ["self", "size"] ∧
      (world.heap.fetch 0).Evolves (run.2.heap.fetch 0) ∧
      run.2.heap.fetch 1 = world.heap.fetch 1 := by
  intro filled definition world run
  have hfilled : filled.Written :=
    Definition.written_node_iff.2 ⟨rfl, nofun, nofun, nofun, nofun, nofun⟩
  have hwritten : definition.Written := by
    refine Definition.written_node_iff.2 ⟨rfl, nofun, nofun, ?_, nofun, nofun⟩
    rintro _ ⟨⟩ field hfield
    rcases List.mem_cons.1 hfield with rfl | hfield
    · exact hfilled
    · obtain rfl := List.mem_singleton.1 hfield
      exact .shorthand .number
  have hunaided : definition.Throughout (default : Host Unit) Definition.Unaided :=
    (hwritten.throughout _).imp fun _ h => h.unaided
  have hzero : ∀ ref, world.heap.Reachable (.object 0) ref → ref = 0 := by
    intro ref hreach
    induction hreach with
    | root hroot => cases hroot; rfl
    | child _ hchild ih =>
      subst ih
      obtain ⟨part, hpart, href⟩ := hchild
      obtain rfl : part = .object 0 := List.mem_singleton.1 hpart
      cases href
      rfl
  have hunreached : ¬ world.heap.Reachable (.object 0) 1 := fun hreach =>
    absurd (hzero 1 hreach) (by decide)
  obtain ⟨hframe, hevolves, -⟩ :=
    check_evolves default { assert := true } (.object 0) definition world hunaided
  exact ⟨by decide +kernel, by decide +kernel, hevolves 0 (by decide),
    hframe 1 (by decide) hunreached⟩

end Conform
