import Conform.Proofs.Validation.Abreast
import Conform.Proofs.Validation.Depth
import Conform.Proofs.Validation.Rehearsal
import Conform.Proofs.Validation.Yield

/-!
# Checking a part apart

Inside of a container a part is checked in a context that stands one step deeper, and in a
heap in which other parts may have been checked before.  If the part does not lead back to
the container, and what it leads to is as it was, the check goes as one of the part apart,
that begins anew where the heap was as it was before, and only calls the part by its path.

The two are compared in two moves.  In one heap, the two contexts are abreast as long as
the check keeps to what the part leads to and what is new.  In one context, the two heaps
have alike parts, and new containers are paired off as they are made.

## Main definitions

* `Heap.Twins`: values of two heaps that are the same up to containers made since.

## Main results

* `Check.yields_part`: inside of a container a part is checked as it is apart.
-/

namespace Conform

variable {σ : Type}

/-! ## Twins -/

/-- Containers of two heaps that have grown from one are paired off one to one and alike:
what was there before with itself, and nothing but what may be touched. -/
structure Heap.Paired (base left right : Heap) (touchable : Ref → Prop)
    (ref : Ref → Ref → Prop) : Prop where
  unique : Relator.BiUnique ref
  agree : Heap.Agree ref left right
  lt : ∀ r s, ref r s → r < left.size ∧ s < right.size
  touchable : ∀ r s, ref r s → touchable r
  old : ∀ r s, ref r s → r < base.size ∨ s < base.size → r = s

/-- Values of two heaps that have grown from one are the same, up to containers that have
been made since. -/
def Heap.Twins (base : Heap) (touchable : Ref → Prop) (left : Heap) (v : Value) (right : Heap)
    (w : Value) : Prop :=
  ∃ ref, base.Paired left right touchable ref ∧ Value.Alike ref v w

/-- Twins stay so where what may be touched is left as it is. -/
theorem Heap.Twins.of_fetch_eq {base left left' right : Heap} {touchable : Ref → Prop}
    {v w : Value} (h : base.Twins touchable left v right w) (hsize : left.size ≤ left'.size)
    (hsame : ∀ r, r < left.size → touchable r → left'.fetch r = left.fetch r) :
    base.Twins touchable left' v right w := by
  obtain ⟨ref, hpaired, hvw⟩ := h
  refine ⟨ref, { hpaired with agree := fun r s hrs => ?_, lt := fun r s hrs => ?_ }, hvw⟩
  · rw [hsame r (hpaired.lt r s hrs).1 (hpaired.touchable r s hrs)]
    exact hpaired.agree r s hrs
  · obtain ⟨hr, hs⟩ := hpaired.lt r s hrs
    exact ⟨Nat.lt_of_lt_of_le hr hsize, hs⟩

theorem Heap.Twins.isAbsent_eq {base left right : Heap} {touchable : Ref → Prop} {v w : Value}
    (h : base.Twins touchable left v right w) : v.isAbsent = w.isAbsent := by
  obtain ⟨ref, -, hvw⟩ := h
  exact hvw.isAbsent_eq

/-! ## The part in another heap -/

section Part

variable {base heap : Heap} {value : Value}
  (hvalue : base.Holds value) (hsize : base.size ≤ heap.size)
  (hsame : ∀ ref, base.Reachable value ref → heap.fetch ref = base.fetch ref)

/-- What a value leads to is paired off with itself, and what is new in order. -/
def Renaming.apart (hvalue : base.Holds value) (hsize : base.size ≤ heap.size) : Renaming where
  old := fun r s => r = s ∧ base.Reachable value r
  base := heap.size
  base' := base.size
  low := base.size
  unique := ⟨fun _ _ _ h h' => h.1.trans h'.1.symm, fun _ _ _ h h' => h.1.symm.trans h'.1⟩
  lt := by
    rintro r _ ⟨rfl, hreach⟩
    have hlt := hvalue r hreach
    exact ⟨Nat.lt_of_lt_of_le hlt hsize, hlt⟩
  low_le := ⟨hsize, Nat.le_refl _⟩

theorem Renaming.apart_old {r s : Ref} (h : (apart hvalue hsize).ref 0 r s) :
    r = s ∧ base.Reachable value r := by
  rcases h with hold | ⟨i, hi, -⟩
  · exact hold
  · cases hi

include hsame in
theorem Renaming.apart_world {env env' : σ} :
    (apart hvalue hsize).World 0 ⟨heap, env⟩ ⟨base, env'⟩ where
  size_left := rfl
  size_right := rfl
  agree := by
    intro r s hrs
    obtain ⟨rfl, hreach⟩ := apart_old hvalue hsize hrs
    rw [hsame r hreach]
    exact .refl fun part hpart child hchild => .inl ⟨rfl, .child hreach ⟨part, hpart, hchild⟩⟩

/-- A context that knows no container made since stands where it stands. -/
theorem Renaming.apart_stands {context : Context} (hwithin : context.Within base.size) :
    (apart hvalue hsize).Stands 0 context context where
  options := rfl
  path := rfl
  visits := rfl
  ancestors := List.forall₂_same.2 fun ref href => .inl ⟨rfl, hwithin.ancestors ref href⟩
  asserting := id
  fresh_left := fun origin horigin =>
    Nat.lt_of_lt_of_le (hwithin.origins origin horigin).1 hsize
  fresh_right := fun origin horigin => (hwithin.origins origin horigin).1
  origin := by
    intro r s hrs
    obtain ⟨rfl, hreach⟩ := apart_old hvalue hsize hrs
    exact .inl ⟨rfl, hwithin.originOf_lt (hvalue r hreach)⟩

/-- What is paired off later are twins. -/
theorem Renaming.apart_paired {count : Nat} {w₁ w₂ : Conform.World σ}
    (h : (apart hvalue hsize).World count w₁ w₂) :
    base.Paired w₁.heap w₂.heap (base.Touchable value) ((apart hvalue hsize).ref count) where
  unique := biUnique_ref
  agree := h.agree
  lt := fun _ _ => h.lt
  touchable := by
    rintro r s (⟨-, hreach⟩ | ⟨i, -, rfl, -⟩)
    · exact .inl hreach
    · exact .inr (Nat.le_trans hsize (Nat.le_add_right _ _))
  old := by
    rintro r s (⟨rfl, -⟩ | ⟨i, -, rfl, rfl⟩) hold
    · rfl
    · have hbase : base.size ≤ heap.size + i := Nat.le_trans hsize (Nat.le_add_right _ _)
      rcases hold with hlt | hlt
      · exact absurd hlt (Nat.not_lt.2 hbase)
      · exact absurd hlt (Nat.not_lt.2 (Nat.le_add_right _ _))

end Part

/-! ## The part in another context -/

/-- How the part that one step leads to is checked apart: it is called by its path. -/
def Options.into (options : Options) (accessor : Accessor) : Options :=
  { options with root := options.root ++ accessor.token }

/-- Inside of a container that is never met again, the context is abreast of one that
begins anew. -/
theorem Context.abreast_into {options : Options} (hcollecting : options.assert = false)
    (hroot : options.policy.allowRootDefault = true) {own : Ref → Prop} {ref : Ref}
    (hown : ¬ own ref) (accessor : Accessor) :
    Context.Abreast own ((Context.start options).visited.entered ref accessor)
      (.start (options.into accessor)) where
  policy := rfl
  pathText := rfl
  refused := by
    change (false && !options.policy.allowRootDefault) =
      (true && !options.policy.allowRootDefault)
    rw [hroot]
    rfl
  asserting := by
    intro hasserting
    rw [show options.assert = true from hasserting] at hcollecting
    cases hcollecting
  origins := rfl
  visits := ⟨1, [0], rfl, rfl, by simp⟩
  ancestors := by
    refine ⟨[ref], rfl, fun other hother hmem => ?_⟩
    -- Without trials every container is itself.
    obtain rfl : other = ref := List.mem_singleton.1 hmem
    exact hown hother

namespace Check

variable {host : Host σ} {options : Options} {value : Value} {definition : Definition}
  {heap : Heap} {world : World σ} {depth : Nat} {ref : Ref}

variable (host) in
/-- **Inside of a container a part is checked as it is apart**, where it does not lead back
and what it leads to is as it was: the same violations or the same fault, and values that
are twins.  Nothing else is touched. -/
theorem yields_part (hcollecting : options.assert = false)
    (hroot : options.policy.allowRootDefault = true) (hwritten : definition.Written)
    (hdepth : definition.depth ≤ depth) (hvalue : world.heap.Holds value)
    (hsize : world.heap.size ≤ heap.size)
    (hsame : ∀ ref, world.heap.Reachable value ref → heap.fetch ref = world.heap.fetch ref)
    (hlt : ref < heap.size) (hback : ¬ world.heap.Reachable value ref) (accessor : Accessor) :
    let apart := check host (options.into accessor) value definition world
    Yields ((Context.start options).visited.entered ref accessor) (fun w => w.heap = heap)
      (checkWithin host depth value definition) (apart.1.map Outcome.violations)
      fun held after => heap.size ≤ after.heap.size ∧
        (∀ ref, ref < heap.size → ¬ world.heap.Reachable value ref →
          after.heap.fetch ref = heap.fetch ref) ∧
        ∃ outcome, apart.1 = .ok outcome ∧ world.heap.Twins (world.heap.Touchable value)
          after.heap held apart.2.heap outcome.value := by
  rintro apart V w rfl
  have hthroughout := hwritten.throughout host
  have hreach : ∀ ref, w.heap.Reachable value ref → world.heap.Reachable value ref :=
    fun ref => Heap.Reachable.of_fetch_eq hsame
  have hcheck : apart = outcome
      (checkWithin host depth value definition ⟨.start (options.into accessor), world⟩) :=
    check_eq_outcome hwritten hdepth _ value world
  -- In this heap, the check keeps to what the part leads to and to what is new.
  have hown : ¬ w.heap.Touchable value ref := by
    rintro (h | hle)
    · exact hback (hreach ref h)
    · exact absurd hlt (Nat.not_lt.2 hle)
  let I : Invariant Still := .territory w.heap (w.heap.Touchable value)
  have habreast := Context.abreast_into hcollecting hroot hown accessor
  have hinside : (I.abreast σ habreast).Ends .still (I.abreast σ habreast).value V []
      (checkWithin host depth value definition
        ⟨((Context.start options).visited.entered ref accessor).holding V, w⟩)
      (checkWithin host depth value definition ⟨.start (options.into accessor), w⟩) :=
    Invariant.follows_abreast (Definition.Local host)
      (fun _ => Invariant.keeps_territory fun _ => .inr)
      (fun _ other hholds _ => Invariant.territory_copy (fun _ => .inr) hholds other)
      depth habreast (fun ref href => .inl (.root href)) (hthroughout.imp fun _ h => h.local)
      .still (le_refl _) V [] w w ⟨rfl, Invariant.holds_touchable_self w.heap value⟩
  -- From here on, the two heaps have alike parts.
  let ρ := Renaming.apart hvalue hsize
  have hwithin : (Context.start (options.into accessor)).Within world.heap.size := ⟨nofun, nofun⟩
  have hstands := Renaming.apart_stands hvalue hsize hwithin
  have hself : Value.Alike (ρ.ref 0) value value := .refl fun ref href => .inl ⟨rfl, .root href⟩
  have hapart : (hstands.scope σ).Ends 0 (hstands.scope σ).value [] []
      (checkWithin host depth value definition ⟨.start (options.into accessor), w⟩)
      (checkWithin host depth value definition ⟨.start (options.into accessor), world⟩) :=
    hstands.follows depth hself hthroughout 0 (le_refl _) [] [] w world
      (Renaming.apart_world hvalue hsize hsame)
  rw [hcheck]
  revert hinside hapart
  generalize checkWithin host depth value definition
    ⟨((Context.start options).visited.entered ref accessor).holding V, w⟩ = r
  generalize checkWithin host depth value definition ⟨.start (options.into accessor), w⟩ = s
  generalize checkWithin host depth value definition ⟨.start (options.into accessor), world⟩ = t
  intro hinside hapart
  have hnever : ¬ options.assert = true := Bool.eq_false_iff.1 hcollecting
  cases hinside with
  | stopped _ hasserting _ => exact absurd hasserting hnever
  | error =>
    cases hapart with
    | stopped _ hasserting _ => exact absurd hasserting hnever
    | error => exact .error
  | ok _ hworld _ hheld =>
    obtain ⟨rfl, hterritory⟩ := hworld
    obtain ⟨rfl, -⟩ := Invariant.alike_iff.1 hheld
    cases hapart with
    | stopped _ hasserting _ => exact absurd hasserting hnever
    | ok _ hworld _ halike =>
      refine .ok ⟨hterritory.1, fun ref hlt hout => hterritory.2.1 ref hlt ?_, ?_⟩
      · rintro (h | hle)
        · exact hout (hreach ref h)
        · exact absurd hlt (Nat.not_lt.2 hle)
      · exact ⟨_, rfl, _, Renaming.apart_paired hvalue hsize hworld, halike⟩

end Check

end Conform
