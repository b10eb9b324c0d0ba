import Conform.Proofs.Validation.Congruence

/-!
# Invariants of checks

An invariant is a property of the heap together with the containers that a check owns:
those that it may come to hold and to change.  What an owned container holds is owned,
and the invariant survives a change of an owned container to hold what is owned.

A check keeps an invariant when, compared with itself, it goes from worlds in which the
invariant holds to such worlds.  The comparison may as well be with another check, and
then tells that the two do the same.

## Main definitions

* `Invariant`: a property of the heap and the containers owned.
* `Invariant.scope`: the comparison of checks in one world.
* `Invariant.Keeps`: definitions whose defaults and transforms keep an invariant.

## Main results

* `Invariant.follows_node`: a node keeps what its parts keep.
* `Invariant.follows_tryAlternative`: so does an alternative that is tried on a copy.
* `Invariant.eq_of_follows`: checks that keep an invariant side by side do the same.
-/

namespace Conform

/-- A property of the heap and the containers owned, which may be more from one moment to
the next. -/
structure Invariant (ι : Type) [Preorder ι] where
  holds : ι → Heap → Prop
  own : ι → Ref → Prop
  own_mono : ∀ {i j : ι} {ref : Ref}, i ≤ j → own i ref → own j ref
  closed : ∀ {i : ι} {heap : Heap} {parent child : Ref}, holds i heap → own i parent →
    heap.Child parent child → own i child
  store : ∀ {i : ι} {heap : Heap} {ref : Ref} {container : Container}, holds i heap → own i ref →
    (∀ value ∈ container.children, ∀ child, value.ref? = some child → own i child) →
    holds i (heap.store ref container)

/-- The moment of an invariant that stays as it is. -/
inductive Still where
  | still

instance : Preorder Still where
  le := fun _ _ => True
  le_refl := fun _ => trivial
  le_trans := fun _ _ _ _ _ => trivial

namespace Invariant

open Check

variable {σ ι α : Type} [Preorder ι] (I : Invariant ι) {i j : ι}

/-! ## What is owned -/

/-- The container behind a value is owned. -/
def Owns (i : ι) (value : Value) : Prop := ∀ ref, value.ref? = some ref → I.own i ref

/-- A container stands for itself if it is owned. -/
def same (i : ι) (r s : Ref) : Prop := r = s ∧ I.own i r

variable {I}

theorem Owns.mono {value : Value} (hij : i ≤ j) (h : I.Owns i value) : I.Owns j value :=
  fun ref href => I.own_mono hij (h ref href)

theorem Owns.scalar {value : Value} (h : value.ref? = none) : I.Owns i value := by
  intro ref href
  rw [h] at href
  cases href

theorem alike_iff {v w : Value} : Value.Alike (I.same i) v w ↔ v = w ∧ I.Owns i v := by
  constructor
  · intro h
    refine ⟨h.eq_of_eq fun _ _ hrs => hrs.1, fun ref href => ?_⟩
    obtain ⟨_, -, hrs⟩ := h.exists_of_ref? href
    exact hrs.2
  · rintro ⟨rfl, h⟩
    exact .refl fun ref href => ⟨rfl, h ref href⟩

theorem owns_of_alike {c d : Container} (h : Container.Alike (I.same i) c d) :
    c = d ∧ ∀ value ∈ c.children, I.Owns i value := by
  refine ⟨h.eq_of_eq fun _ _ hrs => hrs.1, ?_⟩
  have howns : List.Forall₂ (fun v w => I.Owns i v ∧ v = w) c.children d.children :=
    h.children.imp fun _ _ hvw => (alike_iff.1 hvw).symm
  exact ((List.forall₂_and_left _ _).1 howns).1

variable (I)

/-- The comparison of two checks that stand at one place of one world. -/
def scope (σ : Type) (exhaustible : Prop) (context : Context) : Scope σ ι where
  left := context
  right := context
  world := fun i w₁ w₂ => w₁ = w₂ ∧ I.holds i w₁.heap
  ref := I.same
  exhaustible := exhaustible
  ref_mono := fun hij hrs => ⟨hrs.1, I.own_mono hij hrs.2⟩
  pathText_eq := rfl
  asserting_of := id
  agree := by
    rintro i w₁ _ ⟨rfl, hholds⟩ r _ ⟨rfl, hown⟩
    exact .refl fun value hvalue ref href =>
      ⟨rfl, I.closed hholds hown ⟨value, hvalue, href⟩⟩
  store := by
    rintro i w₁ _ r _ c d ⟨rfl, hholds⟩ ⟨rfl, hown⟩ halike
    obtain ⟨rfl, howns⟩ := owns_of_alike halike
    exact ⟨rfl, I.store hholds hown howns⟩

/-! ## Definitions that keep an invariant -/

/-- Running it keeps the invariant and comes to what is owned. -/
def Makes (i : ι) (m : Run σ Value) : Prop :=
  ∀ j, i ≤ j → ∀ world, I.holds j world.heap →
    ∃ k, j ≤ k ∧ I.holds k (m world).2.heap ∧ I.Owns k (m world).1

/-- Running it keeps the invariant and comes to what is owned, or refuses. -/
def Turns (i : ι) (m : Run σ (Except String Value)) : Prop :=
  ∀ j, i ≤ j → ∀ world, I.holds j world.heap →
    ∃ k, j ≤ k ∧ I.holds k (m world).2.heap ∧ ∀ value, (m world).1 = .ok value → I.Owns k value

/-- The default and the transform of a definition keep the invariant. -/
def Keeps (host : Host σ) : Definition → Prop
  | .node keywords =>
    (∀ fallback, keywords.fallback = some fallback → ∀ i, I.Makes i (fallback.produce host)) ∧
      ∀ transform, keywords.custom = some transform →
        ∀ i value, I.Owns i value → I.Turns i (transform.apply host value)
  | _ => True

variable {I} {host : Host σ} {good : Definition → Prop} {exhaustible : Prop} {context : Context}

/-- What is produced leaves the heap as it is. -/
theorem forces (m : Forcing σ α) : (I.scope σ exhaustible context).Forces i m := by
  rintro j hij w _ ⟨rfl, hholds⟩
  exact ⟨rfl, rfl, by rwa [Run.heap_ofForcing]⟩

/-- The keywords of a definition that is good throughout correspond to themselves. -/
theorem matches_self (hgood : ∀ d, good d → I.Keeps host d) {resolved : Resolved}
    (h : Definition.Throughout host good (.node resolved.node)) :
    (I.scope σ exhaustible context).Matches host host (Definition.Same host good) i resolved
      resolved := by
  obtain ⟨hfallback, hcustom⟩ := hgood _ h.self
  refine Scope.matches_self h (fun _ _ => forces _) (fun fallback hsome => ?_)
    fun transform hsome j hij v w hvw => ?_
  · rintro j hij w _ ⟨rfl, hholds⟩
    obtain ⟨k, hjk, hholds', howns⟩ := hfallback fallback hsome i j hij w hholds
    exact ⟨k, hjk, ⟨rfl, hholds'⟩, alike_iff.2 ⟨rfl, howns⟩⟩
  · rintro k hjk world _ ⟨rfl, hholds⟩
    obtain ⟨rfl, hv⟩ := alike_iff.1 hvw
    obtain ⟨l, hkl, hholds', howns⟩ := hcustom transform hsome j v hv k hjk world hholds
    refine ⟨l, hkl, ⟨rfl, hholds'⟩, ?_⟩
    cases hresult : (transform.apply host v world).1 with
    | error reason => exact .error
    | ok value => exact .ok (alike_iff.2 ⟨rfl, howns value hresult⟩)

/-! ## Checks that keep an invariant -/

/-- **A node keeps what the checks of its parts keep.** -/
theorem follows_node {R₁ R₂ : Recurse σ} (hgood : ∀ d, good d → I.Keeps host d)
    (hadmits : (I.scope σ exhaustible context).Admits (Definition.Same host good) R₁ R₂ i)
    {d : Definition} (hd : d.Throughout host good) {v : Value} (hv : I.Owns i v) :
    (I.scope σ exhaustible context).Follows i (node host R₁ v d) (node host R₂ v d)
      (I.scope σ exhaustible context).value :=
  .node hadmits (Scope.runs_resolve hd (forces _) fun _ _ _ h => matches_self hgood h) rfl
    (alike_iff.2 ⟨rfl, hv⟩)

/-- **An alternative that is tried on a copy keeps what its check keeps**, if the check
may use another invariant that begins with the copy and leads back. -/
theorem follows_tryAlternative {κ : Type} [Preorder κ] {R₁ R₂ : Recurse σ} {v : Value}
    {d : Definition}
    (h : ∀ j, i ≤ j → ∀ heap, I.holds j heap → ∃ (I' : Invariant κ) (l : κ),
      I'.holds l (v.copyWithOrigins heap).2 ∧
      (∀ m, l ≤ m → ∀ heap', I'.holds m heap' → ∃ k, j ≤ k ∧ I.holds k heap') ∧
      (I'.scope σ exhaustible (context.fork (v.copyWithOrigins heap).1.2)).Follows l
        (R₁ (v.copyWithOrigins heap).1.1 d) (R₂ (v.copyWithOrigins heap).1.1 d)
        (I'.scope σ exhaustible (context.fork (v.copyWithOrigins heap).1.2)).value) :
    (I.scope σ exhaustible context).Follows i (tryAlternative R₁ v d) (tryAlternative R₂ v d)
      fun _ => Eq := by
  rintro j hij V W w _ ⟨rfl, hholds⟩
  obtain ⟨I', l, hholds', hback, hfollows⟩ := h j hij w.heap hholds
  -- Both sides make the same copy, since they are in the same world.
  have hside : (I.scope σ exhaustible context).Side j
      (I'.scope σ exhaustible (context.fork (v.copyWithOrigins w.heap).1.2)) l
      (v.copyWithOrigins w.heap).1.2 (v.copyWithOrigins w.heap).1.2
      ⟨(v.copyWithOrigins w.heap).2, w.env⟩ ⟨(v.copyWithOrigins w.heap).2, w.env⟩ := by
    refine ⟨rfl, rfl, ⟨rfl, hholds'⟩, id, ?_⟩
    rintro m hlm w _ ⟨rfl, hm⟩
    obtain ⟨k, hjk, hk⟩ := hback m hlm w.heap hm
    exact ⟨k, hjk, rfl, hk⟩
  exact Scope.Follows.trial hside hfollows V W

/-- **Checks that keep an invariant side by side do the same.** -/
theorem eq_of_follows {m₁ m₂ : Check σ α} {P : ι → α → α → Prop} {world : World σ}
    (h : (I.scope σ exhaustible context).Follows i m₁ m₂ P)
    (hpost : ∀ j a b, P j a b → a = b) (hholds : I.holds i world.heap) :
    m₂ ⟨context, world⟩ = m₁ ⟨context, world⟩ ∧
      (∃ j, i ≤ j ∧ I.holds j (final (m₁ ⟨context, world⟩)).world.heap ∧
        ∀ a session, m₁ ⟨context, world⟩ = .ok a session → P j a a) ∧
      ((∃ session, m₁ ⟨context, world⟩ = .error .exhausted session) → exhaustible) := by
  have hends := h i (le_refl i) context.violations context.violations world world ⟨rfl, hholds⟩
  simp only [scope, Context.holding_self] at hends
  revert hends
  generalize m₁ ⟨context, world⟩ = r
  generalize m₂ ⟨context, world⟩ = s
  intro hends
  cases hends with
  | ok hij hworld _ hab =>
    obtain ⟨rfl, hholds'⟩ := hworld
    obtain rfl := hpost _ _ _ hab
    refine ⟨rfl, ⟨_, hij, hholds', ?_⟩, ?_⟩
    · rintro _ _ ⟨⟩
      exact hab
    · rintro ⟨_, ⟨⟩⟩
  | error hij hworld _ hfault =>
    obtain ⟨rfl, hholds'⟩ := hworld
    refine ⟨rfl, ⟨_, hij, hholds', ?_⟩, ?_⟩
    · rintro _ _ ⟨⟩
    · rintro ⟨_, ⟨⟩⟩
      exact hfault rfl
  | stopped hleft hright _ =>
    -- Both stand in one context, and so the second cannot stop where the first goes on.
    have hboth : context.asserting = false := hleft
    rw [show context.asserting = true from hright] at hboth
    cases hboth

end Invariant

end Conform
