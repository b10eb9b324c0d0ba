import Mathlib.Data.Finset.Prod
import Conform.Value.Equality
import Conform.Proofs.Value.Reach
import Conform.Proofs.Value.Whole

/-!
# Equal values look the same along every path

Values may contain themselves, so that what can be seen of them has no end.  They are equal
if no path shows a difference: followed from both it leads nowhere, or to parts of one kind
that look the same before another step is taken.

A comparison takes a pair of containers for equal that it is in the middle of comparing.
This is no assumption about the pair, since it is used for shorter paths only: if no path up
to some length tells the pair apart, then none does that is one step longer and passes
through it.  The comparison goes no deeper than there are pairs of containers, so the depth that
it is given is never used up.

A number that is not equal to itself is told from itself; containers are taken for equal to
themselves without a look at what they hold.  So values are compared in which no such number
is found.

## Main definitions

* `Heap.Resembles`: what can be seen of two values before a step is taken.
* `Heap.Indiscernible`: values that look the same along every path.
* `Heap.Comparable`: values in which every number equals itself.
* `Value.equalWithin?`: a comparison that gives no answer where its depth is used up.

## Main results

* `Heap.indiscernibleWithin_of_equalWithin`: no path tells apart what is found equal.
* `Heap.Indiscernible.equalWithin`: what no path tells apart is found equal.
* `Heap.equalWithin?_eq_some`: the depth is not used up.
* `Value.equal_iff_indiscernible`: all of these together; and equality is an equivalence.
-/

namespace Conform

/-! ## The same keys -/

namespace OrderedMap

variable {α β : Type} {xs : OrderedMap α} {ys : OrderedMap β}

/-- Of two maps of one size that share the keys of the first, both have the same keys. -/
theorem mem_keys_iff_of_size_eq (hsize : xs.size = ys.size) (hsub : xs.keys ⊆ ys.keys)
    (name : String) : name ∈ xs.keys ↔ name ∈ ys.keys := by
  have hlength : ys.keys.length ≤ xs.keys.length := by
    simpa [keys, Entries.keys, size] using Nat.le_of_eq hsize.symm
  exact ((List.subperm_of_subset xs.nodup hsub).perm_of_length_le hlength).mem_iff

theorem size_eq_of_mem_keys_iff (h : ∀ name, name ∈ xs.keys ↔ name ∈ ys.keys) :
    xs.size = ys.size := by
  have hperm := (List.perm_ext_iff_of_nodup xs.nodup ys.nodup).2 h
  simpa [keys, Entries.keys, size] using hperm.length_eq

theorem mem_keys_iff (name : String) : name ∈ xs.keys ↔ ∃ a, xs.get? name = some a :=
  Entries.mem_keys_iff_exists xs.entries name

end OrderedMap

/-- Equality of two values inside the pairs of containers being compared, with no answer where
the depth is used up on the way. -/
def Value.equalWithin? (heap : Heap) : Nat → List (Ref × Ref) → Value → Value → Option Bool
  | 0, _, _, _ => none
  | depth + 1, entered, a, b =>
    match a, b with
    | .array r, .array s =>
      if r == s || entered.contains (r, s) then some true
      else if (heap.items r).length == (heap.items s).length then
        ((heap.items r).zip (heap.items s)).allM fun (x, y) =>
          equalWithin? heap depth ((r, s) :: entered) x y
      else some false
    | .object r, .object s =>
      if r == s || entered.contains (r, s) then some true
      else if (heap.fields r).size == (heap.fields s).size then
        (heap.fields r).entries.allM fun (name, x) =>
          match (heap.fields s).get? name with
          | some y => equalWithin? heap depth ((r, s) :: entered) x y
          | none => some false
      else some false
    | _, _ => some (a.equalWithin heap (depth + 1) entered b)

namespace Heap

variable {heap : Heap} {a b c : Value} {accessor : Accessor} {r s : Ref} {n depth : Nat}
  {entered : List (Ref × Ref)}

/-! ## What can be seen -/

/-- What can be seen of two values of one kind before a step is taken is the same: equal
scalars, the same function, arrays of one length, objects with the same keys. -/
inductive Resembles (heap : Heap) : Value → Value → Prop where
  | null : Resembles heap .null .null
  | bool (b : Bool) : Resembles heap (.bool b) (.bool b)
  | number {x y : Float} : (x == y) = true → Resembles heap (.number x) (.number y)
  | string (s : String) : Resembles heap (.string s) (.string s)
  | dateTime (moment : DateTime) : Resembles heap (.dateTime moment) (.dateTime moment)
  | function (ref : FunctionRef) : Resembles heap (.function ref) (.function ref)
  | array {r s : Ref} : (heap.items r).length = (heap.items s).length →
      Resembles heap (.array r) (.array s)
  | object {r s : Ref} : (∀ name, name ∈ (heap.fields r).keys ↔ name ∈ (heap.fields s).keys) →
      Resembles heap (.object r) (.object s)

/-- Two values look the same along every path: it leads nowhere from both, or to parts that
resemble each other. -/
def Indiscernible (heap : Heap) (a b : Value) : Prop :=
  ∀ path, Option.Rel heap.Resembles (heap.follow? a path) (heap.follow? b path)

/-- Every number in a value equals itself: none of them is not a number. -/
def Comparable (heap : Heap) (value : Value) : Prop :=
  ∀ path x, heap.follow? value path = some (.number x) → x.isNaN = false

namespace Resembles

theorem refl (h : ∀ x, a = .number x → x.isNaN = false) : heap.Resembles a a := by
  cases a with
  | null => exact .null
  | bool b => exact .bool b
  | number x => exact .number (Number.beq_self_of_not_isNaN (h x rfl))
  | string s => exact .string s
  | dateTime moment => exact .dateTime moment
  | array r => exact .array rfl
  | object r => exact .object fun _ => Iff.rfl
  | function ref => exact .function ref

theorem symm (h : heap.Resembles a b) : heap.Resembles b a := by
  cases h with
  | null => exact .null
  | bool b => exact .bool b
  | number hxy => exact .number (Number.beq_symm hxy)
  | string s => exact .string s
  | dateTime moment => exact .dateTime moment
  | array hlength => exact .array hlength.symm
  | object hkeys => exact .object fun name => (hkeys name).symm
  | function ref => exact .function ref

theorem trans (h : heap.Resembles a b) (h' : heap.Resembles b c) : heap.Resembles a c := by
  cases h with
  | number hxy => cases h' with | number hyz => exact .number (Number.beq_trans hxy hyz)
  | array hlength => cases h' with | array hlength' => exact .array (hlength.trans hlength')
  | object hkeys =>
    cases h' with
    | object hkeys' => exact .object fun name => (hkeys name).trans (hkeys' name)
  | _ => exact h'

/-- Of values that resemble each other a step leads to a part of both or of neither. -/
theorem step?_cases (h : heap.Resembles a b) (accessor : Accessor) :
    (heap.step? a accessor = none ∧ heap.step? b accessor = none) ∨
      ∃ x y, heap.step? a accessor = some x ∧ heap.step? b accessor = some y := by
  cases h with
  | @array r s hlength =>
    cases accessor with
    | key name => exact .inl ⟨rfl, rfl⟩
    | index i =>
      by_cases hi : i < (heap.items r).length
      · exact .inr ⟨_, _, List.getElem?_eq_getElem hi, List.getElem?_eq_getElem (hlength ▸ hi)⟩
      · have hle : (heap.items r).length ≤ i := Nat.not_lt.1 hi
        exact .inl ⟨List.getElem?_eq_none hle, List.getElem?_eq_none (hlength ▸ hle)⟩
  | @object r s hkeys =>
    cases accessor with
    | key name =>
      by_cases hname : name ∈ (heap.fields r).keys
      · obtain ⟨x, hx⟩ := (OrderedMap.mem_keys_iff name).1 hname
        obtain ⟨y, hy⟩ := (OrderedMap.mem_keys_iff name).1 ((hkeys name).1 hname)
        exact .inr ⟨x, y, hx, hy⟩
      · have hname' : name ∉ (heap.fields s).keys := fun hs => hname ((hkeys name).2 hs)
        rw [OrderedMap.mem_keys_iff] at hname hname'
        exact .inl ⟨Option.eq_none_iff_forall_ne_some.2 fun x hx => hname ⟨x, hx⟩,
          Option.eq_none_iff_forall_ne_some.2 fun y hy => hname' ⟨y, hy⟩⟩
    | index i => exact .inl ⟨rfl, rfl⟩
  | _ => exact .inl ⟨rfl, rfl⟩

end Resembles

theorem Comparable.part {part : Value} (h : heap.Comparable a)
    (hstep : heap.step? a accessor = some part) : heap.Comparable part := by
  intro path x hpath
  refine h (accessor :: path) x ?_
  rw [follow?_cons, hstep]
  exact hpath

/-- A property that passes to the parts, and that only numbers have which equal themselves. -/
theorem Comparable.of_step {P : Value → Prop} (h : P a)
    (hstep : ∀ v, P v → ∀ accessor part, heap.step? v accessor = some part → P part)
    (hnumber : ∀ x, P (.number x) → x.isNaN = false) : heap.Comparable a := by
  intro path x hpath
  induction path generalizing a with
  | nil =>
    cases hpath
    exact hnumber x h
  | cons accessor rest ih =>
    obtain ⟨part, hpart, hrest⟩ := Option.bind_eq_some_iff.1 hpath
    exact ih (hstep a h accessor part hpart) hrest

namespace Indiscernible

theorem refl (h : heap.Comparable a) : heap.Indiscernible a a := by
  intro path
  cases hpath : heap.follow? a path with
  | none => exact .none
  | some part => exact .some (.refl fun x hx => h path x (hx ▸ hpath))

theorem symm (h : heap.Indiscernible a b) : heap.Indiscernible b a := by
  intro path
  have hpath := h path
  revert hpath
  generalize heap.follow? a path = x
  generalize heap.follow? b path = y
  rintro (hxy | -)
  · exact .some hxy.symm
  · exact .none

theorem trans (h : heap.Indiscernible a b) (h' : heap.Indiscernible b c) :
    heap.Indiscernible a c := by
  intro path
  have hpath := h path
  have hpath' := h' path
  revert hpath hpath'
  generalize heap.follow? a path = x
  generalize heap.follow? b path = y
  generalize heap.follow? c path = z
  rintro (hxy | -) (hyz | -)
  · exact .some (hxy.trans hyz)
  · exact .none

theorem resembles (h : heap.Indiscernible a b) : heap.Resembles a b := by
  cases h [] with
  | some h => exact h

/-- Where values look the same along every path, their parts do. -/
theorem part {x y : Value} (h : heap.Indiscernible a b) (hx : heap.step? a accessor = some x)
    (hy : heap.step? b accessor = some y) : heap.Indiscernible x y := by
  intro path
  have hpath := h (accessor :: path)
  rwa [follow?_cons, follow?_cons, hx, hy] at hpath

end Indiscernible

/-! ## Paths of some length -/

/-- No path of fewer than `n` steps tells two values apart. -/
def IndiscernibleWithin (heap : Heap) (n : Nat) (a b : Value) : Prop :=
  ∀ path : List Accessor, path.length < n →
    Option.Rel heap.Resembles (heap.follow? a path) (heap.follow? b path)

theorem Indiscernible.within (h : heap.Indiscernible a b) (n : Nat) :
    heap.IndiscernibleWithin n a b :=
  fun path _ => h path

theorem indiscernible_of_within (h : ∀ n, heap.IndiscernibleWithin n a b) :
    heap.Indiscernible a b :=
  fun path => h (path.length + 1) path (Nat.lt_succ_self _)

namespace IndiscernibleWithin

theorem anti {m : Nat} (h : heap.IndiscernibleWithin n a b) (hle : m ≤ n) :
    heap.IndiscernibleWithin m a b :=
  fun path hpath => h path (Nat.lt_of_lt_of_le hpath hle)

/-- One step more is needed to tell values apart that resemble each other than to tell their
parts apart. -/
theorem of_parts (h : heap.Resembles a b)
    (hparts : ∀ accessor x y, heap.step? a accessor = some x → heap.step? b accessor = some y →
      heap.IndiscernibleWithin n x y) : heap.IndiscernibleWithin (n + 1) a b := by
  rintro (_ | ⟨accessor, rest⟩) hlength
  · exact .some h
  rw [follow?_cons, follow?_cons]
  rcases h.step?_cases accessor with ⟨hx, hy⟩ | ⟨x, y, hx, hy⟩
  · rw [hx, hy]
    exact .none
  · rw [hx, hy]
    exact hparts accessor x y hx hy rest (Nat.lt_of_succ_lt_succ hlength)

end IndiscernibleWithin

/-! ## One round of a comparison -/

/-- Two arrays or two objects, and the containers behind them. -/
inductive Facing : Value → Value → Ref → Ref → Prop where
  | array (r s : Ref) : Facing (.array r) (.array s) r s
  | object (r s : Ref) : Facing (.object r) (.object s) r s

theorem Resembles.exists_facing {x : Value} (h : heap.Resembles a b)
    (hx : heap.step? a accessor = some x) : ∃ r s, Facing a b r s := by
  cases h with
  | array _ => exact ⟨_, _, .array _ _⟩
  | object _ => exact ⟨_, _, .object _ _⟩
  | _ => cases hx

theorem mem_zip_iff_getElem? {xs ys : List Value} {x y : Value} :
    (x, y) ∈ xs.zip ys ↔ ∃ i : Nat, xs[i]? = some x ∧ ys[i]? = some y := by
  simp only [List.mem_iff_getElem?, List.getElem?_zip_eq_some]

theorem equalWithin_array_iff :
    (Value.array r).equalWithin heap (depth + 1) entered (.array s) = true ↔
      (r = s ∨ (r, s) ∈ entered) ∨ (heap.items r).length = (heap.items s).length ∧
        ∀ (i : Nat) (x y : Value), (heap.items r)[i]? = some x → (heap.items s)[i]? = some y →
          x.equalWithin heap depth ((r, s) :: entered) y = true := by
  simp only [Value.equalWithin, Bool.or_eq_true, beq_iff_eq, List.contains_iff_mem,
    Bool.and_eq_true, List.all_eq_true]
  refine or_congr_right (and_congr_right fun _ => ?_)
  constructor
  · intro h i x y hx hy
    exact h (x, y) (mem_zip_iff_getElem?.2 ⟨i, hx, hy⟩)
  · rintro h ⟨x, y⟩ hpair
    obtain ⟨i, hx, hy⟩ := mem_zip_iff_getElem?.1 hpair
    exact h i x y hx hy

theorem equalWithin_object_iff :
    (Value.object r).equalWithin heap (depth + 1) entered (.object s) = true ↔
      (r = s ∨ (r, s) ∈ entered) ∨
        (∀ name, name ∈ (heap.fields r).keys ↔ name ∈ (heap.fields s).keys) ∧
        ∀ (name : String) (x y : Value), (heap.fields r).get? name = some x →
          (heap.fields s).get? name = some y →
            x.equalWithin heap depth ((r, s) :: entered) y = true := by
  simp only [Value.equalWithin, Bool.or_eq_true, beq_iff_eq, List.contains_iff_mem,
    Bool.and_eq_true, List.all_eq_true]
  refine or_congr_right ?_
  constructor
  · rintro ⟨hsize, hall⟩
    -- Only the keys of the first are looked up; the sizes say that the second has no others.
    have hfound : ∀ name x, (heap.fields r).get? name = some x → ∃ y,
        (heap.fields s).get? name = some y ∧
          Value.equalWithin heap depth ((r, s) :: entered) x y = true := by
      intro name x hx
      have hentry := hall (name, x) (OrderedMap.mem_of_get? hx)
      cases hy : (heap.fields s).get? name with
      | some y => exact ⟨y, rfl, by simpa [hy] using hentry⟩
      | none => simp [hy] at hentry
    refine ⟨OrderedMap.mem_keys_iff_of_size_eq hsize fun name hname => ?_, ?_⟩
    · obtain ⟨x, hx⟩ := (OrderedMap.mem_keys_iff name).1 hname
      obtain ⟨y, hy, -⟩ := hfound name x hx
      exact (OrderedMap.mem_keys_iff name).2 ⟨y, hy⟩
    · intro name x y hx hy
      obtain ⟨y', hy', hxy⟩ := hfound name x hx
      obtain rfl := Option.some.inj (hy'.symm.trans hy)
      exact hxy
  · rintro ⟨hkeys, hparts⟩
    refine ⟨OrderedMap.size_eq_of_mem_keys_iff hkeys, ?_⟩
    rintro ⟨name, x⟩ hentry
    have hx : (heap.fields r).get? name = some x := OrderedMap.get?_of_mem hentry
    obtain ⟨y, hy⟩ := (OrderedMap.mem_keys_iff name).1
      ((hkeys name).1 ((OrderedMap.mem_keys_iff name).2 ⟨x, hx⟩))
    simpa [hy] using hparts name x y hx hy

theorem equalWithin_scalar_iff (h : a.ref? = none) :
    a.equalWithin heap (depth + 1) entered b = true ↔ heap.Resembles a b := by
  constructor
  · intro heq
    cases a with
    | null => cases b with
      | null => exact .null
      | _ => cases heq
    | bool x => cases b with
      | bool y => exact beq_iff_eq.1 heq ▸ .bool x
      | _ => cases heq
    | number x => cases b with
      | number y => exact .number heq
      | _ => cases heq
    | string s => cases b with
      | string t => exact beq_iff_eq.1 heq ▸ .string s
      | _ => cases heq
    | dateTime s => cases b with
      | dateTime t => exact beq_iff_eq.1 heq ▸ .dateTime s
      | _ => cases heq
    | function f => cases b with
      | function g => exact beq_iff_eq.1 heq ▸ .function f
      | _ => cases heq
    | array r => cases h
    | object r => cases h
  · intro hresembles
    cases hresembles with
    | null => rfl
    | number hxy => exact hxy
    | bool b => exact beq_self_eq_true b
    | string s => exact beq_self_eq_true s
    | dateTime moment => exact beq_self_eq_true moment
    | function ref => exact beq_self_eq_true ref
    | array _ => cases h
    | object _ => cases h

/-- **A comparison finds no difference** between a container and itself, between two containers
that it is comparing already, and between values that resemble each other if it finds none
between their parts. -/
theorem equalWithin_succ_iff :
    a.equalWithin heap (depth + 1) entered b = true ↔
      (∃ r s, Facing a b r s ∧ (r = s ∨ (r, s) ∈ entered)) ∨
        heap.Resembles a b ∧ ∀ accessor x y r s, Facing a b r s →
          heap.step? a accessor = some x → heap.step? b accessor = some y →
            x.equalWithin heap depth ((r, s) :: entered) y = true := by
  constructor
  · intro h
    cases a with
    | array r =>
      cases b with
      | array s =>
        rcases equalWithin_array_iff.1 h with hmet | ⟨hlength, hparts⟩
        · exact .inl ⟨r, s, .array r s, hmet⟩
        · refine .inr ⟨.array hlength, ?_⟩
          rintro (name | i) x y _ _ ⟨⟩ hx hy
          · cases hx
          · exact hparts i x y hx hy
      | _ => cases h
    | object r =>
      cases b with
      | object s =>
        rcases equalWithin_object_iff.1 h with hmet | ⟨hkeys, hparts⟩
        · exact .inl ⟨r, s, .object r s, hmet⟩
        · refine .inr ⟨.object hkeys, ?_⟩
          rintro (name | i) x y _ _ ⟨⟩ hx hy
          · exact hparts name x y hx hy
          · cases hx
      | _ => cases h
    | _ =>
      refine .inr ⟨(equalWithin_scalar_iff rfl).1 h, fun accessor x y r s hfacing => ?_⟩
      cases hfacing
  · rintro (⟨r, s, ⟨⟩, hmet⟩ | ⟨hresembles, hparts⟩)
    · exact equalWithin_array_iff.2 (.inl hmet)
    · exact equalWithin_object_iff.2 (.inl hmet)
    · cases hresembles with
      | @array r s hlength =>
        refine equalWithin_array_iff.2 (.inr ⟨hlength, fun i x y hx hy => ?_⟩)
        exact hparts (.index i) x y r s (.array r s) hx hy
      | @object r s hkeys =>
        refine equalWithin_object_iff.2 (.inr ⟨hkeys, fun name x y hx hy => ?_⟩)
        exact hparts (.key name) x y r s (.object r s) hx hy
      | null => exact (equalWithin_scalar_iff rfl).2 .null
      | bool b => exact (equalWithin_scalar_iff rfl).2 (.bool b)
      | number hxy => exact (equalWithin_scalar_iff rfl).2 (.number hxy)
      | string s => exact (equalWithin_scalar_iff rfl).2 (.string s)
      | dateTime moment => exact (equalWithin_scalar_iff rfl).2 (.dateTime moment)
      | function ref => exact (equalWithin_scalar_iff rfl).2 (.function ref)

/-! ## The pairs under comparison -/

/-- The pairs of containers of the heap that are not under comparison. -/
def unmet (heap : Heap) (entered : List (Ref × Ref)) : Finset (Ref × Ref) :=
  Finset.range heap.size ×ˢ Finset.range heap.size \ entered.toFinset

/-- Comparing one more pair of containers of the heap leaves fewer to be compared. -/
theorem card_unmet_cons_lt (hr : r < heap.size) (hs : s < heap.size) (hnew : (r, s) ∉ entered) :
    (heap.unmet ((r, s) :: entered)).card < (heap.unmet entered).card := by
  refine Finset.card_lt_card ⟨fun pair hpair => ?_, fun hsub => ?_⟩
  · simp only [unmet, Finset.mem_sdiff, List.mem_toFinset, List.mem_cons, not_or] at hpair ⊢
    exact ⟨hpair.1, hpair.2.2⟩
  · have hmem : (r, s) ∈ heap.unmet entered := by simp [unmet, hr, hs, hnew]
    have hmem' := hsub hmem
    simp [unmet] at hmem'

theorem card_unmet_nil_lt (heap : Heap) : (heap.unmet []).card < Value.equalDepth heap := by
  have hsquare : heap.size * heap.size ≤ (heap.size + 1) * (heap.size + 1) :=
    Nat.mul_le_mul (Nat.le_succ _) (Nat.le_succ _)
  simp only [unmet, List.toFinset_nil, Finset.sdiff_empty, Finset.card_product, Finset.card_range,
    Value.equalDepth]
  omega

/-- Below a pair that is not under comparison there are fewer to be compared. -/
theorem Facing.card_unmet_lt {x y : Value} (h : Facing a b r s)
    (hx : heap.step? a accessor = some x) (hy : heap.step? b accessor = some y)
    (hnew : (r, s) ∉ entered) :
    (heap.unmet ((r, s) :: entered)).card < (heap.unmet entered).card := by
  obtain ⟨r', hr', hr, -⟩ := exists_of_step? hx
  obtain ⟨s', hs', hs, -⟩ := exists_of_step? hy
  cases h <;> cases hr' <;> cases hs' <;> exact card_unmet_cons_lt hr hs hnew

/-- **The depth is no matter**, as long as it exceeds the number of pairs that are left. -/
theorem equalWithin_eq_of_lt : ∀ {depth depth' : Nat} {entered : List (Ref × Ref)} {a b : Value},
    (heap.unmet entered).card < depth → (heap.unmet entered).card < depth' →
      a.equalWithin heap depth entered b = a.equalWithin heap depth' entered b := by
  intro depth
  induction depth with
  | zero => intro _ _ _ _ h; exact absurd h (Nat.not_lt_zero _)
  | succ depth ih =>
    intro depth' entered a b h h'
    obtain _ | depth' := depth'
    · exact absurd h' (Nat.not_lt_zero _)
    rw [Bool.eq_iff_iff, equalWithin_succ_iff, equalWithin_succ_iff]
    by_cases hmet : ∃ r s, Facing a b r s ∧ (r = s ∨ (r, s) ∈ entered)
    · exact iff_of_true (.inl hmet) (.inl hmet)
    -- Otherwise the parts are compared, with one pair more under comparison on both sides.
    refine or_congr_right (and_congr_right fun _ => ?_)
    refine forall₅_congr fun accessor x y r s => forall₃_congr fun hfacing hx hy => ?_
    have hnew : (r, s) ∉ entered := fun hmem => hmet ⟨r, s, hfacing, .inr hmem⟩
    have hlt := hfacing.card_unmet_lt hx hy hnew
    have hsame : x.equalWithin heap depth ((r, s) :: entered) y =
        x.equalWithin heap depth' ((r, s) :: entered) y := ih (by omega) (by omega)
    rw [hsame]

/-! ## The depth is not used up -/

theorem allM_eq_some {α : Type} {p : α → Option Bool} {q : α → Bool} {xs : List α}
    (h : ∀ x ∈ xs, p x = some (q x)) : xs.allM p = some (xs.all q) := by
  induction xs with
  | nil => rfl
  | cons x xs ih =>
    have hrest := ih fun y hy => h y (List.mem_cons_of_mem x hy)
    simp only [List.allM_cons, h x List.mem_cons_self, List.all_cons]
    cases q x with
    | true => exact hrest
    | false => rfl

/-- The parts are looked at if the pair is not under comparison, and has as many on both sides. -/
theorem ite_allM_eq_some {α : Type} {met same : Bool} {p : α → Option Bool} {q : α → Bool}
    {xs : List α} (h : met = false → ∀ x ∈ xs, p x = some (q x)) :
    (if met then some true else if same then xs.allM p else some false) =
      some (met || (same && xs.all q)) := by
  cases met with
  | true => rfl
  | false =>
    cases same with
    | true => exact allM_eq_some (h rfl)
    | false => rfl

/-- **The depth is not used up**, as long as it exceeds the number of pairs that are left: each
round puts one more pair under comparison. -/
theorem equalWithin?_eq_some : ∀ {depth : Nat} {entered : List (Ref × Ref)} {a b : Value},
    (heap.unmet entered).card < depth →
      a.equalWithin? heap depth entered b = some (a.equalWithin heap depth entered b) := by
  intro depth
  induction depth with
  | zero => intro _ _ _ h; exact absurd h (Nat.not_lt_zero _)
  | succ depth ih =>
    intro entered a b h
    have hparts : ∀ {a b x y : Value} {r s : Ref} (accessor : Accessor), Facing a b r s →
        (r == s || entered.contains (r, s)) = false → heap.step? a accessor = some x →
        heap.step? b accessor = some y → x.equalWithin? heap depth ((r, s) :: entered) y =
          some (x.equalWithin heap depth ((r, s) :: entered) y) := by
      intro a b x y r s accessor hfacing hmet hx hy
      have hnew : (r, s) ∉ entered := fun hmem => by simp [hmem] at hmet
      have hlt := hfacing.card_unmet_lt hx hy hnew
      exact ih (by omega)
    cases a with
    | array r =>
      cases b with
      | array s =>
        refine ite_allM_eq_some fun hmet => ?_
        rintro ⟨x, y⟩ hpair
        obtain ⟨i, hx, hy⟩ := mem_zip_iff_getElem?.1 hpair
        exact hparts (.index i) (.array r s) hmet hx hy
      | _ => rfl
    | object r =>
      cases b with
      | object s =>
        refine ite_allM_eq_some fun hmet => ?_
        rintro ⟨name, x⟩ hentry
        have hx : (heap.fields r).get? name = some x := OrderedMap.get?_of_mem hentry
        cases hy : (heap.fields s).get? name with
        | none => simp only [hy]
        | some y =>
          simp only [hy]
          exact hparts (.key name) (.object r s) hmet hx hy
      | _ => rfl
    | _ => rfl

/-! ## What is found equal is alike along every path -/

/-- What holds an item has no fields. -/
theorem step?_object_eq_none {x : Value} (h : heap.step? (.array r) accessor = some x)
    (accessor' : Accessor) : heap.step? (.object r) accessor' = none := by
  obtain ⟨ref, name, heq, -, -⟩ | ⟨ref, i, heq, -, hitem⟩ := step?_cases h
  · cases heq
  cases heq
  cases accessor' with
  | index j => rfl
  | key name =>
    change (heap.fetch r).fields.get? name = none
    unfold items at hitem
    cases hfetch : heap.fetch r with
    | array items => rfl
    | object fields => rw [hfetch] at hitem; cases hitem

/-- What holds a field has no items. -/
theorem step?_array_eq_none {x : Value} (h : heap.step? (.object r) accessor = some x)
    (accessor' : Accessor) : heap.step? (.array r) accessor' = none := by
  cases hstep : heap.step? (.array r) accessor' with
  | none => rfl
  | some y => rw [step?_object_eq_none hstep accessor] at h; cases h

/-- Empty containers of one kind are not told apart. -/
theorem Facing.indiscernibleWithin (h : Facing a b r s)
    (ha : ∀ accessor, heap.step? a accessor = none)
    (hb : ∀ accessor, heap.step? b accessor = none) : heap.IndiscernibleWithin n a b := by
  have hresembles : heap.Resembles a b := by
    cases h with
    | array =>
      have hr := List.getElem?_eq_none_iff.1 (ha (.index 0))
      have hs := List.getElem?_eq_none_iff.1 (hb (.index 0))
      exact .array (by omega)
    | object =>
      refine .object fun name => ?_
      rw [OrderedMap.mem_keys_iff, OrderedMap.mem_keys_iff]
      refine iff_of_false ?_ ?_
      · rintro ⟨x, hx⟩
        cases (ha (.key name)).symm.trans hx
      · rintro ⟨y, hy⟩
        cases (hb (.key name)).symm.trans hy
  refine (IndiscernibleWithin.of_parts (n := n) hresembles ?_).anti (Nat.le_succ n)
  intro accessor x y hx
  rw [ha] at hx
  cases hx

/-- The pairs under comparison are not told apart by a path of fewer than `n` steps. -/
def Assumed (heap : Heap) (n : Nat) (entered : List (Ref × Ref)) : Prop :=
  ∀ a b r s, Facing a b r s → (r, s) ∈ entered → heap.IndiscernibleWithin n a b

theorem Assumed.anti {m : Nat} (h : heap.Assumed n entered) (hle : m ≤ n) :
    heap.Assumed m entered :=
  fun a b r s hfacing hmem => (h a b r s hfacing hmem).anti hle

/-- A pair with parts joins those under comparison. -/
theorem Assumed.cons {x y : Value} (h : heap.Assumed n entered) (hfacing : Facing a b r s)
    (hx : heap.step? a accessor = some x) (hy : heap.step? b accessor = some y)
    (hself : heap.IndiscernibleWithin n a b) : heap.Assumed n ((r, s) :: entered) := by
  intro a' b' r' s' hfacing' hmem
  rcases List.mem_cons.1 hmem with heq | hmem
  · obtain ⟨rfl, rfl⟩ := Prod.mk.inj heq
    -- Taken for the other kind, containers that hold something are empty.
    cases hfacing <;> cases hfacing'
    · exact hself
    · exact (Facing.object r' s').indiscernibleWithin (step?_object_eq_none hx)
        (step?_object_eq_none hy)
    · exact (Facing.array r' s').indiscernibleWithin (step?_array_eq_none hx)
        (step?_array_eq_none hy)
    · exact hself
  · exact h a' b' r' s' hfacing' hmem

/-- **No path tells apart what is found equal.**  The induction is on the length of the path:
values that are found equal again have parts that are found equal, in whose comparison they are
assumed to be alike along the shorter paths. -/
theorem indiscernibleWithin_of_equalWithin (n : Nat) :
    ∀ {depth : Nat} {entered : List (Ref × Ref)} {a b : Value}, heap.Comparable a →
      (heap.unmet entered).card < depth → heap.Assumed n entered →
      a.equalWithin heap depth entered b = true → heap.IndiscernibleWithin n a b := by
  induction n with
  | zero => intro _ _ _ _ _ _ _ _ path hpath; exact absurd hpath (Nat.not_lt_zero _)
  | succ n ih =>
    intro depth entered a b hcomparable hdepth hassumed h
    -- Of shorter paths this is known already, and the parts are one step shorter.
    have hself : heap.IndiscernibleWithin n a b :=
      ih hcomparable hdepth (hassumed.anti (Nat.le_succ n)) h
    obtain _ | depth := depth
    · exact absurd hdepth (Nat.not_lt_zero _)
    by_cases hmet : ∃ r s, Facing a b r s ∧ (r, s) ∈ entered
    · obtain ⟨r, s, hfacing, hmem⟩ := hmet
      exact hassumed a b r s hfacing hmem
    rcases equalWithin_succ_iff.1 h with ⟨r, s, hfacing, rfl | hmem⟩ | ⟨hresembles, hparts⟩
    · have hsame : a = b := by cases hfacing <;> rfl
      exact hsame ▸ (Indiscernible.refl hcomparable).within _
    · exact absurd ⟨r, s, hfacing, hmem⟩ hmet
    · refine .of_parts hresembles fun accessor x y hx hy => ?_
      obtain ⟨r, s, hfacing⟩ := hresembles.exists_facing hx
      have hnew : (r, s) ∉ entered := fun hmem => hmet ⟨r, s, hfacing, hmem⟩
      have hlt := hfacing.card_unmet_lt hx hy hnew
      exact ih (hcomparable.part hx) (by omega)
        ((hassumed.anti (Nat.le_succ n)).cons hfacing hx hy hself)
        (hparts accessor x y r s hfacing hx hy)

/-- **What no path tells apart is found equal**, at whatever depth. -/
theorem Indiscernible.equalWithin (depth : Nat) :
    ∀ {entered : List (Ref × Ref)} {a b : Value}, heap.Indiscernible a b →
      a.equalWithin heap depth entered b = true := by
  induction depth with
  | zero => intro _ _ _ _; rfl
  | succ depth ih =>
    intro entered a b h
    refine equalWithin_succ_iff.2 (.inr ⟨h.resembles, fun accessor x y r s _ hx hy => ih ?_⟩)
    exact h.part hx hy

end Heap

/-! ## Equality -/

/-- **Equal are the values that look the same along every path**, if every number in them
equals itself: followed from both the path leads nowhere, or to equal scalars, to the same
function, to arrays of one length or to objects with the same keys.  Whatever the values are,
a comparison ends before its depth is used up, and more depth changes nothing.  So equality is
an equivalence. -/
theorem Value.equal_iff_indiscernible (heap : Heap) :
    (∀ a b : Value, heap.Comparable a → heap.Comparable b →
      (a.equal heap b = true ↔ heap.Indiscernible a b)) ∧
    (∀ (a b : Value) (depth : Nat), Value.equalDepth heap ≤ depth →
      a.equalWithin heap depth [] b = a.equal heap b) ∧
    (∀ a b : Value, a.equalWithin? heap (Value.equalDepth heap) [] b = some (a.equal heap b)) ∧
    Equivalence fun v w : { value // heap.Comparable value } => v.1.equal heap w.1 = true := by
  have hdepth := heap.card_unmet_nil_lt
  have hequal : ∀ a b : Value, heap.Comparable a →
      (a.equal heap b = true ↔ heap.Indiscernible a b) := by
    intro a b ha
    refine ⟨fun h => Heap.indiscernible_of_within fun n => ?_, fun h => h.equalWithin _⟩
    exact Heap.indiscernibleWithin_of_equalWithin n ha hdepth nofun h
  refine ⟨fun a b ha _ => hequal a b ha, ?_, fun a b => Heap.equalWithin?_eq_some hdepth, ?_⟩
  · intro a b depth hle
    exact Heap.equalWithin_eq_of_lt (Nat.lt_of_lt_of_le hdepth hle) hdepth
  · refine ⟨fun v => ?_, fun {v w} h => ?_, fun {v w u} h h' => ?_⟩
    · exact (hequal _ _ v.2).2 (.refl v.2)
    · exact (hequal _ _ w.2).2 ((hequal _ _ v.2).1 h).symm
    · exact (hequal _ _ v.2).2 (((hequal _ _ v.2).1 h).trans ((hequal _ _ w.2).1 h'))

/-- A ring of one object and a ring of two, with the keys in another order. -/
theorem Value.equal_rings :
    let heap : Heap := { containers := #[
      .object (.ofList [("next", .object 0), ("name", .string "a")]),
      .object (.ofList [("name", .string "a"), ("next", .object 2)]),
      .object (.ofList [("next", .object 1), ("name", .string "a")])] }
    (Value.object 0).equal heap (.object 1) = true ∧
      heap.Indiscernible (.object 0) (.object 1) := by
  intro heap
  have hscalar : ∀ ref < 3, ∀ part ∈ heap.children ref, part.kind ≠ "number" := by decide
  have hcomparable : ∀ ref, heap.Comparable (.object ref) := by
    intro ref
    refine .of_step (P := fun v => v.kind ≠ "number") (by simp [Value.kind])
      (fun v _ accessor part h => ?_) fun x hx => absurd rfl hx
    obtain ⟨parent, -, hlt, hpart⟩ := Heap.exists_of_step? h
    exact hscalar parent hlt part hpart
  have hequal : (Value.object 0).equal heap (.object 1) = true := by decide
  have hsame := (Value.equal_iff_indiscernible heap).1 _ _ (hcomparable 0) (hcomparable 1)
  exact ⟨hequal, hsame.1 hequal⟩

end Conform
