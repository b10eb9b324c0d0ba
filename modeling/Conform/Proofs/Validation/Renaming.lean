import Conform.Proofs.Validation.Discipline
import Conform.Proofs.Validation.Origin
import Conform.Proofs.Value.Document

/-!
# Checks of a value and of its like

Two checks of alike values against one definition go in step, in different heaps and with
different containers.  Some containers are paired off before; all that are made on the way
take the next places in both heaps, also the copies of trials, so they are paired off by
their distance from where the new ones begin.

The two contexts know containers by their origins.  An origin is one that both know by the
same number, or a container made on the way.

## Main definitions

* `Renaming`: the containers that are paired off, before and on the way.
* `Renaming.Stands`: two contexts at the same place.

## Main results

* `Renaming.World.copy`: copies of alike values are alike.
* `Renaming.Stands.fork`: on them the contexts stand as before.
* `Renaming.Stands.follows`: the checks of alike values go in step.
-/

namespace Conform

/-- Containers paired off in two heaps: some from before, and the new ones in order. -/
structure Renaming where
  old : Ref → Ref → Prop
  /-- Where the new containers begin in the first heap. -/
  base : Nat
  /-- Where they begin in the second. -/
  base' : Nat
  /-- The numbers by which both know the same container. -/
  low : Nat
  unique : Relator.BiUnique old
  lt : ∀ r s, old r s → r < base ∧ s < base'
  low_le : low ≤ base ∧ low ≤ base'

namespace Renaming

variable (ρ : Renaming)

/-- The containers paired off when `count` have been made on the way. -/
def ref (count : Nat) (r s : Ref) : Prop := ρ.old r s ∨ Ref.Shifted ρ.base ρ.base' count r s

/-- The origins that stand for each other. -/
def ident (a b : Ref) : Prop :=
  a = b ∧ a < ρ.low ∨ ∃ count, Ref.Shifted ρ.base ρ.base' count a b

variable {ρ} {m n : Nat}

theorem ref_mono (hmn : m ≤ n) {r s : Ref} (h : ρ.ref m r s) : ρ.ref n r s :=
  h.imp_right (Ref.Shifted.mono hmn r s)

/-- What is paired off later is paired off now, or made in between. -/
theorem ref_add_cases {count : Nat} {r s : Ref} (h : ρ.ref (m + count) r s) :
    ρ.ref m r s ∨ ∃ i, i < count ∧ r = ρ.base + m + i ∧ s = ρ.base' + m + i := by
  rcases h with hold | ⟨i, hi, rfl, rfl⟩
  · exact .inl (.inl hold)
  · by_cases hlt : i < m
    · exact .inl (.inr ⟨i, hlt, rfl, rfl⟩)
    · have hle : m ≤ i := Nat.not_lt.1 hlt
      refine .inr ⟨i - m, Nat.sub_lt_left_of_lt_add hle hi, ?_, ?_⟩
      · rw [Nat.add_assoc, Nat.add_sub_of_le hle]
      · rw [Nat.add_assoc, Nat.add_sub_of_le hle]

theorem biUnique_ref : Relator.BiUnique (ρ.ref m) := by
  constructor
  · rintro r r' s (hold | ⟨i, -, rfl, rfl⟩) (hold' | ⟨j, -, rfl, hj⟩)
    · exact ρ.unique.1 hold hold'
    · exact absurd (ρ.lt _ _ hold).2 (Nat.not_lt.2 (hj ▸ Nat.le_add_right _ _))
    · exact absurd (ρ.lt _ _ hold').2 (Nat.not_lt.2 (Nat.le_add_right _ _))
    · rw [Nat.add_left_cancel hj]
  · rintro r s s' (hold | ⟨i, -, rfl, rfl⟩) (hold' | ⟨j, -, hj, rfl⟩)
    · exact ρ.unique.2 hold hold'
    · exact absurd (ρ.lt _ _ hold).1 (Nat.not_lt.2 (hj ▸ Nat.le_add_right _ _))
    · exact absurd (ρ.lt _ _ hold').1 (Nat.not_lt.2 (Nat.le_add_right _ _))
    · rw [Nat.add_left_cancel hj]

theorem biUnique_ident : Relator.BiUnique ρ.ident := by
  -- What both know by the same number is not new on either side.
  have hlow : ∀ {a : Ref}, a < ρ.low → ∀ i, a ≠ ρ.base + i ∧ a ≠ ρ.base' + i := by
    intro a ha i
    exact ⟨Nat.ne_of_lt (Nat.lt_of_lt_of_le ha (Nat.le_trans ρ.low_le.1 (Nat.le_add_right _ _))),
      Nat.ne_of_lt (Nat.lt_of_lt_of_le ha (Nat.le_trans ρ.low_le.2 (Nat.le_add_right _ _)))⟩
  constructor
  · rintro a a' b (⟨rfl, ha⟩ | ⟨_, i, -, rfl, rfl⟩) (⟨rfl, ha'⟩ | ⟨_, j, -, rfl, hj⟩)
    · rfl
    · exact absurd hj (hlow ha j).2
    · exact absurd rfl (hlow ha' i).2
    · rw [Nat.add_left_cancel hj]
  · rintro a b b' (⟨rfl, ha⟩ | ⟨_, i, -, rfl, rfl⟩) (⟨rfl, ha'⟩ | ⟨_, j, -, hj, rfl⟩)
    · rfl
    · exact absurd hj (hlow ha j).1
    · exact absurd rfl (hlow ha' i).1
    · rw [Nat.add_left_cancel hj]

/-! ## Worlds in step -/

theorem exists_getElem?_of_forall₂ {α β : Type} {R : α → β → Prop} {xs : List α} {ys : List β}
    (h : List.Forall₂ R xs ys) {i : Nat} (hi : i < xs.length) :
    ∃ x y, xs[i]? = some x ∧ ys[i]? = some y ∧ R x y := by
  have hi' : i < ys.length := h.length_eq ▸ hi
  exact ⟨xs[i], ys[i], List.getElem?_eq_getElem hi, List.getElem?_eq_getElem hi', h.get hi hi'⟩

/-- Two worlds in which the same number of containers have been made. -/
structure World {σ : Type} (ρ : Renaming) (m : Nat) (w₁ w₂ : Conform.World σ) : Prop where
  size_left : w₁.heap.size = ρ.base + m
  size_right : w₂.heap.size = ρ.base' + m
  agree : Heap.Agree (ρ.ref m) w₁.heap w₂.heap

namespace World

variable {σ : Type} {w₁ w₂ : Conform.World σ}

/-- Containers that are paired off are in the heaps. -/
theorem lt (h : ρ.World m w₁ w₂) {r s : Ref} (hrs : ρ.ref m r s) :
    r < w₁.heap.size ∧ s < w₂.heap.size := by
  rw [h.size_left, h.size_right]
  rcases hrs with hold | ⟨i, hi, rfl, rfl⟩
  · have hlt := ρ.lt r s hold
    exact ⟨Nat.lt_add_right _ hlt.1, Nat.lt_add_right _ hlt.2⟩
  · exact ⟨Nat.add_lt_add_left hi _, Nat.add_lt_add_left hi _⟩

theorem store (h : ρ.World m w₁ w₂) {r s : Ref} {c d : Container} (hrs : ρ.ref m r s)
    (hcd : Container.Alike (ρ.ref m) c d) :
    ρ.World m ⟨w₁.heap.store r c, w₁.env⟩ ⟨w₂.heap.store s d, w₂.env⟩ where
  size_left := by rw [Heap.size_store, h.size_left]
  size_right := by rw [Heap.size_store, h.size_right]
  agree := by
    intro r' s' hrs'
    -- Pairs are one to one, and so both sides read what was written or neither does.
    by_cases heq : r = r'
    · subst heq
      obtain rfl := biUnique_ref.2 hrs hrs'
      rw [Heap.fetch_store_self _ _ (h.lt hrs).1, Heap.fetch_store_self _ _ (h.lt hrs).2]
      exact hcd
    · have hne : s ≠ s' := by
        rintro rfl
        exact heq (biUnique_ref.1 hrs hrs')
      rw [Heap.fetch_store_of_ne _ _ heq, Heap.fetch_store_of_ne _ _ hne]
      exact h.agree r' s' hrs'

/-- Corresponding new containers on both sides. -/
theorem grown (h : ρ.World m w₁ w₂) {left right : Heap} {count : Nat}
    (hgrown : Heap.Grown w₁.heap w₂.heap left right count) :
    ρ.World (m + count) ⟨left, w₁.env⟩ ⟨right, w₂.env⟩ ∧
      ∀ r s, Ref.Shifted w₁.heap.size w₂.heap.size count r s → ρ.ref (m + count) r s := by
  have hnew : ∀ r s, Ref.Shifted w₁.heap.size w₂.heap.size count r s →
      ρ.ref (m + count) r s := by
    intro r s hrs
    rw [h.size_left, h.size_right] at hrs
    exact .inr (Ref.Shifted.after r s hrs)
  have hmono : ∀ r s, ρ.ref m r s → ρ.ref (m + count) r s :=
    fun _ _ => ref_mono (Nat.le_add_right _ _)
  refine ⟨⟨?_, ?_, fun r s hrs => ?_⟩, hnew⟩
  · rw [hgrown.size_left, h.size_left, Nat.add_assoc]
  · rw [hgrown.size_right, h.size_right, Nat.add_assoc]
  · rcases ref_add_cases hrs with hbefore | ⟨i, hi, rfl, rfl⟩
    · rw [hgrown.fetch_left r (h.lt hbefore).1, hgrown.fetch_right s (h.lt hbefore).2]
      exact (h.agree r s hbefore).mono hmono
    · refine (hgrown.agree _ _ ⟨i, hi, ?_, ?_⟩).mono hnew
      · rw [h.size_left]
      · rw [h.size_right]

/-- **Copies of alike values are alike.** -/
theorem copy (h : ρ.World m w₁ w₂) {v w : Value} (hvw : Value.Alike (ρ.ref m) v w) :
    ρ.World (m + (w₁.heap.reach v).length) ⟨(v.copyWithOrigins w₁.heap).2, w₁.env⟩
        ⟨(w.copyWithOrigins w₂.heap).2, w₂.env⟩ ∧
      Value.Alike (ρ.ref (m + (w₁.heap.reach v).length)) (v.copyWithOrigins w₁.heap).1.1
        (w.copyWithOrigins w₂.heap).1.1 := by
  have hreach := h.agree.reach biUnique_ref hvw
  have hlength := hreach.length_eq
  have hmono : ∀ r s, ρ.ref m r s → ρ.ref (m + (w₁.heap.reach v).length) r s :=
    fun _ _ => ref_mono (Nat.le_add_right _ _)
  -- The copies of corresponding containers are at the same distance in the two walks.
  have hrename : ∀ r s, ρ.ref m r s → ρ.ref (m + (w₁.heap.reach v).length)
      (Ref.renameTo (w₁.heap.reach v) w₁.heap.size r)
      (Ref.renameTo (w₂.heap.reach w) w₂.heap.size s) := by
    intro r s hrs
    refine Heap.rel_renameTo biUnique_ref (hreach.imp hmono) (fun i hi => ?_) (hmono r s hrs)
    rw [h.size_left, h.size_right, Nat.add_assoc, Nat.add_assoc]
    exact .inr ⟨m + i, Nat.add_lt_add_left hi m, rfl, rfl⟩
  refine ⟨⟨?_, ?_, fun r s hrs => ?_⟩, hvw.mapRef hrename⟩
  · rw [Value.size_copyWithOrigins, h.size_left, Nat.add_assoc]
  · rw [Value.size_copyWithOrigins, h.size_right, ← hlength, Nat.add_assoc]
  · rcases ref_add_cases hrs with hbefore | ⟨i, hi, rfl, rfl⟩
    · rw [Value.fetch_copyWithOrigins_of_lt v _ (h.lt hbefore).1,
        Value.fetch_copyWithOrigins_of_lt w _ (h.lt hbefore).2]
      exact (h.agree r s hbefore).mono hmono
    · obtain ⟨r, s, hr, hs, hrs⟩ := exists_getElem?_of_forall₂ hreach hi
      rw [Value.fetch_copyWithOrigins v _ ⟨i, hr, by rw [h.size_left]⟩,
        Value.fetch_copyWithOrigins w _ ⟨i, hs, by rw [h.size_right]⟩]
      exact (h.agree r s hrs).mapValues fun _ _ hparts => hparts.mapRef hrename

end World

/-! ## Contexts in step -/

/-- Two contexts at the same place, when `m` containers have been made on the way.  Both
know every container that is paired off by corresponding origins. -/
structure Stands (ρ : Renaming) (m : Nat) (left right : Context) : Prop where
  options : left.options = right.options
  path : left.path = right.path
  visits : left.visits = right.visits
  ancestors : List.Forall₂ ρ.ident left.ancestors right.ancestors
  asserting : left.asserting = true → right.asserting = true
  fresh_left : ∀ origin ∈ left.origins, origin.1 < ρ.base + m
  fresh_right : ∀ origin ∈ right.origins, origin.1 < ρ.base' + m
  origin : ∀ r s, ρ.ref m r s → ρ.ident (left.originOf r) (right.originOf s)

namespace Stands

variable {left right : Context}

/-- What is made later is its own origin on both sides. -/
theorem mono (hmn : m ≤ n) (h : ρ.Stands m left right) : ρ.Stands n left right where
  options := h.options
  path := h.path
  visits := h.visits
  ancestors := h.ancestors
  asserting := h.asserting
  fresh_left := fun origin horigin =>
    Nat.lt_of_lt_of_le (h.fresh_left origin horigin) (Nat.add_le_add_left hmn _)
  fresh_right := fun origin horigin =>
    Nat.lt_of_lt_of_le (h.fresh_right origin horigin) (Nat.add_le_add_left hmn _)
  origin := by
    obtain ⟨count, rfl⟩ := Nat.exists_eq_add_of_le hmn
    intro r s hrs
    rcases ref_add_cases hrs with hbefore | ⟨i, -, rfl, rfl⟩
    · exact h.origin r s hbefore
    · rw [left.originOf_of_not_mem fun origin horigin =>
          Nat.ne_of_lt (Nat.lt_add_right i (h.fresh_left origin horigin)),
        right.originOf_of_not_mem fun origin horigin =>
          Nat.ne_of_lt (Nat.lt_add_right i (h.fresh_right origin horigin))]
      exact .inr ⟨m + i + 1, m + i, Nat.lt_succ_self _, Nat.add_assoc .., Nat.add_assoc ..⟩

theorem visited (h : ρ.Stands m left right) : ρ.Stands m left.visited right.visited :=
  { h with visits := by simp only [Context.visited, h.path, h.visits] }

theorem entered (h : ρ.Stands m left right) {r s : Ref} (hrs : ρ.ref m r s)
    (accessor : Accessor) : ρ.Stands m (left.entered r accessor) (right.entered s accessor) :=
  { h with
    path := congrArg (accessor :: ·) h.path
    ancestors := .cons (h.origin r s hrs) h.ancestors }

/-- **On copies of alike values** the contexts stand as before: the origins of the copies
are those of the originals. -/
theorem fork {σ : Type} {w₁ w₂ : Conform.World σ} (h : ρ.Stands m left right)
    (hworld : ρ.World m w₁ w₂) {v w : Value} (hvw : Value.Alike (ρ.ref m) v w) :
    ρ.Stands (m + (w₁.heap.reach v).length) (left.fork (v.copyWithOrigins w₁.heap).1.2)
      (right.fork (w.copyWithOrigins w₂.heap).1.2) := by
  have hreach := hworld.agree.reach biUnique_ref hvw
  have hleft : ∀ origin ∈ left.origins, origin.1 < w₁.heap.size := by
    rw [hworld.size_left]
    exact h.fresh_left
  have hright : ∀ origin ∈ right.origins, origin.1 < w₂.heap.size := by
    rw [hworld.size_right]
    exact h.fresh_right
  refine ⟨h.options, h.path, h.visits, h.ancestors, nofun, fun origin horigin => ?_,
    fun origin horigin => ?_, fun r s hrs => ?_⟩
  · have hlt := Context.lt_of_mem_origins_fork hleft horigin
    rwa [Value.size_copyWithOrigins, hworld.size_left, Nat.add_assoc] at hlt
  · have hlt := Context.lt_of_mem_origins_fork hright horigin
    rwa [Value.size_copyWithOrigins, hworld.size_right, ← hreach.length_eq, Nat.add_assoc] at hlt
  · rcases ref_add_cases hrs with hbefore | ⟨i, hi, rfl, rfl⟩
    · rw [Context.originOf_fork_of_lt (hworld.lt hbefore).1,
        Context.originOf_fork_of_lt (hworld.lt hbefore).2]
      exact h.origin r s hbefore
    · -- Two copies at the same distance are copies of containers that correspond.
      obtain ⟨r, s, hr, hs, hrs⟩ := exists_getElem?_of_forall₂ hreach hi
      rw [Context.originOf_fork_of_copied hleft ⟨i, hr, by rw [hworld.size_left]⟩,
        Context.originOf_fork_of_copied hright ⟨i, hs, by rw [hworld.size_right]⟩]
      exact h.origin r s hrs

/-- A container has been entered on both sides or on neither. -/
theorem mem_ancestors (h : ρ.Stands m left right) {r s : Ref} (hrs : ρ.ref m r s) :
    left.originOf r ∈ left.ancestors ↔ right.originOf s ∈ right.ancestors :=
  List.rel_mem biUnique_ident (h.origin r s hrs) h.ancestors

/-- The comparison of two checks in such contexts. -/
def scope (σ : Type) (h : ρ.Stands m left right) : Scope σ Nat where
  left := left
  right := right
  world := ρ.World
  ref := ρ.ref
  exhaustible := True
  ref_mono := fun hij hrs => ref_mono hij hrs
  pathText_eq := by simp only [Context.pathText, h.options, h.path]
  asserting_of := h.asserting
  agree := fun hworld => hworld.agree
  store := fun hworld hrs hcd => hworld.store hrs hcd

end Stands

/-! ## Checks in step -/

section Checks

variable {σ : Type} {left right : Context} {host : Host σ}

/-- What is produced leaves the heaps as they are. -/
theorem World.forced {α : Type} {w₁ w₂ : Conform.World σ} (h : ρ.World m w₁ w₂)
    (f : Forcing σ α) : ρ.World m (Run.ofForcing f w₁).2 (Run.ofForcing f w₂).2 where
  size_left := by rw [Run.heap_ofForcing, h.size_left]
  size_right := by rw [Run.heap_ofForcing, h.size_right]
  agree := by rw [Run.heap_ofForcing, Run.heap_ofForcing]; exact h.agree

theorem Stands.forces {α : Type} (h : ρ.Stands n left right) {f : Forcing σ α} (hf : f.Steady) :
    (h.scope σ).Forces m f :=
  fun _ _ _ _ hworld => ⟨hf _ _, hworld.forced f⟩

/-- A default that is a document is alike on both sides. -/
theorem Stands.runs_literal (h : ρ.Stands n left right) (json : Json) :
    (h.scope σ).Runs m ((Fallback.literal json).produce host)
      ((Fallback.literal json).produce host) (h.scope σ).value := by
  intro j _ w₁ w₂ hworld
  obtain ⟨count, hgrown, halike⟩ := Heap.grown_ofJson json w₁.heap w₂.heap
  obtain ⟨hworld', hnew⟩ := World.grown hworld hgrown
  exact ⟨j + count, Nat.le_add_right _ _, hworld', halike.mono hnew⟩

/-- The keywords of a repeatable definition correspond to themselves. -/
theorem Stands.matches_self (h : ρ.Stands n left right) {resolved : Resolved}
    (hgood : Definition.Throughout host (Definition.Repeatable host) (.node resolved.node)) :
    (h.scope σ).Matches host host (Definition.Same host (Definition.Repeatable host)) m resolved
      resolved := by
  refine Scope.matches_self hgood (fun fields hfields => h.forces ?_) (fun fallback hsome => ?_)
    fun transform hsome => ?_
  · exact hgood.self.steady fields hfields
  · cases fallback with
    | literal json => exact h.runs_literal json
    | produced code => exact absurd hsome (hgood.self.fallback _ code rfl)
  · rw [hgood.self.custom _ rfl] at hsome
    cases hsome

/-- **The checks of alike values go in step**, in contexts at the same place. -/
theorem Stands.follows (depth : Nat) (h : ρ.Stands m left right) {v w : Value}
    (hvw : Value.Alike (ρ.ref m) v w) {d : Definition}
    (hd : d.Throughout host (Definition.Repeatable host)) :
    (h.scope σ).Follows m (checkWithin host depth v d) (checkWithin host depth w d)
      (h.scope σ).value := by
  -- The contexts change from call to call, and so the induction is for all that stand so.
  induction depth generalizing m left right v w d with
  | zero => exact .throw fun _ => trivial
  | succ depth ih =>
    have hnesting : left.nesting = right.nesting := by
      simp only [Context.nesting, h.path, h.visits]
    refine .visiting (iff_of_eq (congrArg _ hnesting)) (.node _ (checkWithin_restores host _) _)
      fun _ => ?_
    have hvisited := h.visited
    have hadmits : (hvisited.scope σ).Admits (Definition.Same host (Definition.Repeatable host))
        (checkWithin host depth) (checkWithin host depth) m := by
      constructor
      case restores => exact checkWithin_restores host _
      case guard => exact fun j hmj r s hrs => (hvisited.mono hmj).mem_ancestors hrs
      case here =>
        rintro j hmj v w hvw d _ ⟨rfl, hd⟩
        exact ih (hvisited.mono hmj) hvw hd
      case below =>
        rintro j hmj r s hrs - accessor k hjk v w hvw d _ ⟨rfl, hd⟩
        exact ih (((hvisited.mono hmj).entered hrs accessor).mono hjk) hvw hd
      case aside =>
        rintro j hmj v w hvw d _ ⟨rfl, hd⟩ k hjk V W w₁ w₂ hworld
        have hvw' : Value.Alike (ρ.ref k) v w := hvw.mono fun _ _ => ref_mono hjk
        obtain ⟨hcopied, hcopies⟩ := World.copy hworld hvw'
        have hforked := (hvisited.mono (Nat.le_trans hmj hjk)).fork hworld hvw'
        -- The copies are among the new containers, and so the trial leads back by itself.
        have hside : (hvisited.scope σ).Side k (hforked.scope σ) (k + (w₁.heap.reach v).length)
            (v.copyWithOrigins w₁.heap).1.2 (w.copyWithOrigins w₂.heap).1.2
            ⟨(v.copyWithOrigins w₁.heap).2, w₁.env⟩ ⟨(w.copyWithOrigins w₂.heap).2, w₂.env⟩ :=
          ⟨rfl, rfl, hcopied, id, fun l hle _ _ hworld' =>
            ⟨l, Nat.le_trans (Nat.le_add_right _ _) hle, hworld'⟩⟩
        exact Scope.Follows.trial hside (ih hforked hcopies hd) V W
    refine Scope.Follows.node hadmits ?_ ?_ hvw
    · have hsteady : ∀ met, Definition.Met host d met → met.Steady host :=
        fun met hmet => (hd met hmet).steady
      have hpolicy : (hvisited.scope σ).left.options.policy =
          (hvisited.scope σ).right.options.policy := congrArg _ h.options
      rw [← hpolicy]
      exact Scope.runs_resolve hd (hvisited.forces (Definition.steady_resolve hsteady _))
        fun _ _ _ hgood => hvisited.matches_self hgood
    · change (left.atRoot && !left.options.policy.allowRootDefault) =
        (right.atRoot && !right.options.policy.allowRootDefault)
      simp only [Context.atRoot, h.path, h.options]

end Checks

end Renaming

end Conform
