import Conform.Proofs.Validation.Discipline
import Conform.Proofs.Validation.Origin

/-!
# Checks abreast

A check hangs on its context in three ways only.  It complains with the text of the path;
it counts the definitions under way at the present place; and it asks whether a container
has been come through.  So a context may stand deeper than another, with more definitions
under way outside and more containers come through outside, if the text of the path is the
same and none of these containers is ever met again.  In the same world a check does the
same in both, and the second may also be one that stops at the first violation.

## Main definitions

* `Context.Abreast`: two contexts between which a check does not tell.
* `Invariant.abreast`: the comparison of checks in such contexts.

## Main results

* `Context.Abreast.nesting_eq`, `Context.Abreast.mem_ancestors`: the guards agree.
* `Context.Abreast.fork`: contexts abreast are so in a trial.
* `Invariant.follows_abreast`: a check in the second goes as in the first.
-/

namespace Conform

/-! ## Contexts abreast -/

/-- The first context may stand deeper than the second: there may be definitions under way
at places further out, and containers come through that no container owned stands for. -/
structure Context.Abreast (own : Ref → Prop) (left right : Context) : Prop where
  policy : left.options.policy = right.options.policy
  pathText : left.pathText = right.pathText
  refused : (left.atRoot && !left.options.policy.allowRootDefault) =
    (right.atRoot && !right.options.policy.allowRootDefault)
  asserting : left.asserting = true → right.asserting = true
  origins : left.origins = right.origins
  visits : ∃ offset outer, left.path.length = right.path.length + offset ∧
    left.visits = right.visits.map (· + offset) ++ outer ∧ ∀ length ∈ outer, length < offset
  ancestors : ∃ outer, left.ancestors = right.ancestors ++ outer ∧
    ∀ ref, own ref → left.originOf ref ∉ outer

/-- What comes from further out is not at the present place. -/
theorem length_takeWhile_shifted {xs outer : List Nat} {offset n : Nat}
    (houter : ∀ x ∈ outer, x < offset) :
    ((xs.map (· + offset) ++ outer).takeWhile (· == n + offset)).length =
      (xs.takeWhile (· == n)).length := by
  induction xs with
  | nil =>
    cases outer with
    | nil => rfl
    | cons x outer =>
      have hlt := houter x (List.mem_cons_self ..)
      have hne : x ≠ n + offset := by omega
      rw [List.map_nil, List.nil_append, List.takeWhile_cons_of_neg (by simpa using hne)]
      rfl
  | cons x xs ih =>
    by_cases heq : x = n
    · subst heq
      rw [List.map_cons, List.cons_append, List.takeWhile_cons_of_pos (by simp),
        List.takeWhile_cons_of_pos (by simp), List.length_cons, List.length_cons, ih]
    · rw [List.map_cons, List.cons_append, List.takeWhile_cons_of_neg (by simpa using heq),
        List.takeWhile_cons_of_neg (by simpa using heq)]

namespace Context

/-- A container has in a trial the origin that it had, or that of an original. -/
theorem originOf_fork_cases (context : Context) (copies : List (Ref × Ref)) (ref : Ref) :
    (context.fork copies).originOf ref = context.originOf ref ∨
      ∃ origin ∈ copies, (context.fork copies).originOf ref = context.originOf origin.2 := by
  simp only [originOf, origins_fork, List.find?_append]
  cases context.origins.find? fun origin => origin.1 == ref with
  | some origin => exact .inl rfl
  | none =>
    rw [Option.none_or, List.find?_map]
    cases hfind : copies.find? _ with
    | none => exact .inl rfl
    | some origin => exact .inr ⟨origin, List.mem_of_find?_eq_some hfind, rfl⟩

namespace Abreast

variable {own : Ref → Prop} {left right : Context}

theorem originOf_eq (h : Abreast own left right) (ref : Ref) :
    left.originOf ref = right.originOf ref := by
  simp only [originOf, h.origins]

/-- **As many definitions are under way** in both contexts. -/
theorem nesting_eq (h : Abreast own left right) : left.nesting = right.nesting := by
  obtain ⟨offset, outer, hpath, hvisits, houter⟩ := h.visits
  rw [nesting, nesting, hpath, hvisits, length_takeWhile_shifted houter]

/-- **A container owned has been come through** in both contexts or in neither. -/
theorem mem_ancestors (h : Abreast own left right) {ref : Ref} (hown : own ref) :
    left.originOf ref ∈ left.ancestors ↔ right.originOf ref ∈ right.ancestors := by
  obtain ⟨outer, hancestors, houter⟩ := h.ancestors
  rw [hancestors, List.mem_append, h.originOf_eq]
  exact or_iff_left (h.originOf_eq ref ▸ houter ref hown)

theorem visited (h : Abreast own left right) : Abreast own left.visited right.visited where
  policy := h.policy
  pathText := h.pathText
  refused := h.refused
  asserting := h.asserting
  origins := h.origins
  ancestors := h.ancestors
  visits := by
    obtain ⟨offset, outer, hpath, hvisits, houter⟩ := h.visits
    refine ⟨offset, outer, hpath, ?_, houter⟩
    simp only [Context.visited, hvisits, hpath, List.map_cons, List.cons_append]

theorem entered (h : Abreast own left right) (ref : Ref) (accessor : Accessor) :
    Abreast own (left.entered ref accessor) (right.entered ref accessor) where
  policy := h.policy
  pathText := congrArg (· ++ accessor.token) h.pathText
  refused := rfl
  asserting := h.asserting
  origins := h.origins
  visits := by
    obtain ⟨offset, outer, hpath, hvisits, houter⟩ := h.visits
    refine ⟨offset, outer, ?_, hvisits, houter⟩
    simp only [Context.entered, List.length_cons, hpath]
    omega
  ancestors := by
    obtain ⟨outer, hancestors, houter⟩ := h.ancestors
    refine ⟨outer, ?_, houter⟩
    simp only [Context.entered, hancestors, h.originOf_eq ref, List.cons_append]

/-- **In a trial of what is owned** contexts abreast are so. -/
theorem fork (h : Abreast own left right) {copies : List (Ref × Ref)}
    (hcopies : ∀ origin ∈ copies, own origin.2) :
    Abreast own (left.fork copies) (right.fork copies) where
  policy := h.policy
  pathText := h.pathText
  refused := h.refused
  asserting := nofun
  origins := by
    simp only [origins_fork, h.origins, h.originOf_eq]
  visits := h.visits
  ancestors := by
    obtain ⟨outer, hancestors, houter⟩ := h.ancestors
    refine ⟨outer, hancestors, fun ref hown => ?_⟩
    rcases originOf_fork_cases left copies ref with heq | ⟨origin, hmem, heq⟩
    · exact heq ▸ houter ref hown
    · exact heq ▸ houter origin.2 (hcopies origin hmem)

end Abreast

end Context

/-! ## Checks abreast -/

namespace Scope

/-- Whether keywords correspond does not hang on the contexts. -/
theorem Matches.within {σ ι : Type} [Preorder ι] {K : Scope σ ι} {host₁ host₂ : Host σ}
    {definitions : Definition → Definition → Prop} {i : ι} {a b : Resolved}
    (h : K.Matches host₁ host₂ definitions i a b) {left right : Context}
    {hpath : left.pathText = right.pathText}
    {hasserting : left.asserting = true → right.asserting = true} :
    (K.within left right hpath hasserting).Matches host₁ host₂ definitions i a b where
  required := h.required
  strict := h.strict
  kind := h.kind
  allowed := h.allowed
  bounds := h.bounds
  require := h.require
  restrict := h.restrict
  either := h.either
  items := h.items
  schema := h.schema
  fallback := h.fallback
  custom := h.custom

end Scope

namespace Invariant

open Check

variable {σ : Type} {I : Invariant Still} {host : Host σ} {left right : Context}

/-- The comparison of checks that stand abreast in one world. -/
def abreast (I : Invariant Still) (σ : Type) (h : Context.Abreast (I.own .still) left right) :
    Scope σ Still :=
  (I.scope σ True left).within left right h.pathText h.asserting

/-- What a value that is owned leads to is owned. -/
theorem own_of_reachable {heap : Heap} {value : Value} (hholds : I.holds .still heap)
    (howns : I.Owns .still value) {ref : Ref} (hreach : heap.Reachable value ref) :
    I.own .still ref := by
  induction hreach with
  | root hroot => exact howns _ hroot
  | child _ hchild ih => exact I.closed hholds ih hchild

/-- **Abreast, a check goes in the second context as in the first**, as long as it keeps to
an invariant that copies keep. -/
theorem follows_abreast (good : Definition → Prop) (hgood : ∀ d, good d → I.Keeps host d)
    (hcopy : ∀ (heap : Heap) (value : Value), I.holds .still heap → I.Owns .still value →
      I.holds .still (value.copyWithOrigins heap).2 ∧
        I.Owns .still (value.copyWithOrigins heap).1.1)
    (depth : Nat) (h : Context.Abreast (I.own .still) left right) {v : Value}
    (hv : I.Owns .still v) {d : Definition} (hd : d.Throughout host good) :
    (I.abreast σ h).Follows .still (checkWithin host depth v d) (checkWithin host depth v d)
      (I.abreast σ h).value := by
  -- The contexts change from call to call, and so the induction is for all that are abreast.
  induction depth generalizing left right v d with
  | zero => exact .throw fun _ => trivial
  | succ depth ih =>
    refine .visiting (iff_of_eq (congrArg _ h.nesting_eq)) (.node _ (checkWithin_restores host _) _)
      fun _ => ?_
    have hvisited := h.visited
    have hadmits : (I.abreast σ hvisited).Admits (Definition.Same host good)
        (checkWithin host depth) (checkWithin host depth) .still := by
      constructor
      case restores => exact checkWithin_restores host _
      case guard =>
        rintro j - r _ ⟨rfl, hown⟩
        exact hvisited.mem_ancestors hown
      case here =>
        rintro j - w _ hvw d _ ⟨rfl, hd⟩
        obtain ⟨rfl, hw⟩ := alike_iff.1 hvw
        exact ih hvisited hw hd
      case below =>
        rintro j - r _ ⟨rfl, hown⟩ - accessor k - w _ hvw d _ ⟨rfl, hd⟩
        obtain ⟨rfl, hw⟩ := alike_iff.1 hvw
        exact ih (hvisited.entered r accessor) hw hd
      case aside =>
        rintro j - w _ hvw d _ ⟨rfl, hd⟩ k hjk V W world _ ⟨rfl, hholds⟩
        obtain ⟨rfl, hw⟩ := alike_iff.1 hvw
        obtain ⟨hcopied, howns⟩ := hcopy world.heap w hholds hw
        -- What is copied is owned, and so the contexts are abreast in the trial as well.
        have hforked := hvisited.fork fun origin horigin =>
          own_of_reachable hholds hw <| Heap.mem_reach_iff.1
            ((Value.mem_copyWithOrigins w world.heap).1 horigin).mem
        have hside : (I.abreast σ hvisited).Side k (I.abreast σ hforked) .still
            (w.copyWithOrigins world.heap).1.2 (w.copyWithOrigins world.heap).1.2
            ⟨(w.copyWithOrigins world.heap).2, world.env⟩
            ⟨(w.copyWithOrigins world.heap).2, world.env⟩ :=
          ⟨rfl, rfl, ⟨rfl, hcopied⟩, id, fun _ _ _ _ hworld => ⟨k, le_refl k, hworld⟩⟩
        exact Scope.Follows.trial hside (ih hforked howns hd) V W
    have hpolicy : (I.abreast σ hvisited).right.options.policy =
        (I.abreast σ hvisited).left.options.policy := h.policy.symm
    refine Scope.Follows.node hadmits ?_ h.refused (alike_iff.2 ⟨rfl, hv⟩)
    have hforces : (I.scope σ True left).Forces .still
        (resolve host (I.abreast σ hvisited).left.options.policy d) := forces _
    rw [hpolicy]
    refine Scope.runs_resolve hd hforces fun j _ resolved hresolved => ?_
    have hself : (I.scope σ True left).Matches host host (Definition.Same host good) j resolved
        resolved := matches_self hgood hresolved
    exact hself.within

end Invariant

end Conform
