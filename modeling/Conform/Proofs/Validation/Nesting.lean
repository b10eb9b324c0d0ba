import Conform.Proofs.Validation.Frame
import Conform.Proofs.Validation.Origin

/-!
# Checks come to an end

A definition may unfold for ever and a value may contain itself, so nothing that a check
goes down on gets smaller.  What is bounded is how far it goes down.  Every step into the
value enters a container that it has not come through, and a copy counts as its original,
also in trials inside of trials; so the path is no longer than there are containers.  At
any one length of the path, there are no more definitions under way than may be.

## Main definitions

* `Context.Nested`, `Context.Bounded`: the bounds on a context, for the containers of the
  whole value, and what follows from them.
* `Definition.Scalar`: definitions without transforms whose defaults are scalar documents.
* `Discipline.nesting`: how the bounds are handed on, and how much of the depth is left.

## Main results

* `Context.Nested.visits_length`: how many definitions are under way in all.
* `nested_check`: the bounds hold at every call, and a check comes to an end.
-/

namespace Conform

variable {σ : Type}

/-! ## Counting -/

/-- A list of numbers up to a bound, none of which occurs too often, is short. -/
theorem length_le_of_count_le {xs : List Nat} {bound most : Nat} (hbound : ∀ x ∈ xs, x ≤ bound)
    (hmost : ∀ x, xs.count x ≤ most) : xs.length ≤ most * (bound + 1) := by
  induction bound generalizing xs with
  | zero =>
    have hall : xs.count 0 = xs.length :=
      List.count_eq_length.2 fun x hx => (Nat.le_zero.1 (hbound x hx)).symm
    rw [← hall, Nat.zero_add, Nat.mul_one]
    exact hmost 0
  | succ bound ih =>
    -- The occurrences of the bound itself are set apart from the rest.
    let rest := xs.filter fun x => ¬x = bound + 1
    have hrest : rest.length ≤ most * (bound + 1) := by
      refine ih (fun x hx => ?_) fun x => ?_
      · obtain ⟨hmem, hne⟩ := List.mem_filter.1 hx
        exact Nat.le_of_lt_succ (Nat.lt_of_le_of_ne (hbound x hmem) (by simpa using hne))
      · exact Nat.le_trans (List.filter_sublist.count_le x) (hmost x)
    calc xs.length = xs.count (bound + 1) + rest.length := by
          rw [List.length_eq_countP_add_countP (· == bound + 1), List.count,
            List.countP_eq_length_filter (p := fun x => ¬(x == bound + 1) = true)]
          simp [rest]
      _ ≤ most + most * (bound + 1) := Nat.add_le_add (hmost _) hrest
      _ = most * (bound + 1 + 1) := by rw [Nat.mul_succ most (bound + 1), Nat.add_comm]

/-- In a list that falls from a number on, the occurrences of the number come first. -/
theorem length_takeWhile_eq_count {xs : List Nat} {x : Nat} (hfalls : xs.Pairwise (· ≥ ·))
    (hle : ∀ y ∈ xs, y ≤ x) : (xs.takeWhile (· == x)).length = xs.count x := by
  induction xs with
  | nil => rfl
  | cons y ys ih =>
    obtain ⟨hy, hys⟩ := List.pairwise_cons.1 hfalls
    by_cases heq : y = x
    · subst heq
      rw [List.takeWhile_cons_of_pos (by simp), List.length_cons, List.count_cons_self,
        ih hys fun z hz => hy z hz]
    · have hnone : x ∉ ys := fun hx =>
        heq (Nat.le_antisymm (hle y (List.mem_cons_self ..)) (hy x hx))
      rw [List.takeWhile_cons_of_neg (by simpa using heq), List.count_cons_of_ne heq,
        List.count_eq_zero.2 hnone, List.length_nil]

/-! ## The bounds -/

namespace Context

/-- The tokens of the path, the name of the value first. -/
def tokens (context : Context) : List String :=
  context.options.root :: context.path.reverse.map Accessor.token

/-- The path has one more token than there are containers on the way; these are different
containers of the value; and at no length of the path are there too many definitions under
way. -/
structure Nested (originals : List Ref) (context : Context) : Prop where
  tokens : context.tokens.length = context.ancestors.length + 1
  nodup : context.ancestors.Nodup
  subset : context.ancestors ⊆ originals
  visits_le : ∀ length ∈ context.visits, length ≤ context.path.length
  count_visits : ∀ length, context.visits.count length ≤ maxNesting

namespace Nested

variable {originals : List Ref} {context : Context}

theorem length_path (h : context.Nested originals) :
    context.path.length = context.ancestors.length := by
  have htokens := h.tokens
  simpa [Context.tokens] using htokens

/-- There are no more containers on the way than the value has. -/
theorem length_ancestors (h : context.Nested originals) :
    context.ancestors.length ≤ originals.length :=
  (List.subperm_of_subset h.nodup h.subset).length_le

/-- **There are not too many definitions under way in all.** -/
theorem visits_length (h : context.Nested originals) :
    context.visits.length ≤ maxNesting * (originals.length + 1) := by
  refine length_le_of_count_le (fun length hlength => ?_) h.count_visits
  exact Nat.le_trans (h.visits_le length hlength) (h.length_path ▸ h.length_ancestors)

/-- Taking up one more definition where there may be one more. -/
theorem visited (h : context.Nested originals) (hfalls : context.visits.Pairwise (· ≥ ·))
    (hfew : ¬ maxNesting ≤ context.nesting) : context.visited.Nested originals :=
  { h with
    visits_le := by
      intro length hlength
      rcases List.mem_cons.1 hlength with rfl | hlength
      · exact Nat.le_refl _
      · exact h.visits_le length hlength
    count_visits := by
      intro length
      rw [show context.visited.visits = context.path.length :: context.visits from rfl]
      -- The guard counts the visits at the front, and there all visits at this place are.
      by_cases heq : context.path.length = length
      · subst heq
        have hcount : context.nesting = context.visits.count context.path.length :=
          length_takeWhile_eq_count hfalls h.visits_le
        rw [List.count_cons_self, ← hcount]
        exact Nat.not_le.1 hfew
      · rw [List.count_cons_of_ne heq]
        exact h.count_visits length }

end Nested

/-- The bounds on a context and what follows from them, also when one more definition is
taken up. -/
structure Bounded (originals : List Ref) (context : Context) : Prop where
  nested : context.Nested originals
  ancestors : context.ancestors.length ≤ originals.length
  visits : context.visits.length ≤ maxNesting * (originals.length + 1)
  visited : ¬ maxNesting ≤ context.nesting →
    context.visited.Nested originals ∧
      context.visited.visits.length ≤ maxNesting * (originals.length + 1)

end Context

/-! ## Definitions with scalar defaults -/

/-- A document without parts. -/
def Json.Scalar : Json → Prop
  | .array _ => False
  | .object _ => False
  | _ => True

/-- A definition without a transform whose default is a scalar document. -/
def Definition.Scalar : Definition → Prop
  | .node keywords => keywords.custom = none ∧
    ∀ fallback, keywords.fallback = some fallback → ∃ json, fallback = .literal json ∧ json.Scalar
  | _ => True

theorem ofJson_scalar {json : Json} (h : json.Scalar) (heap : Heap) :
    (Value.ofJson json heap).2 = heap ∧ (Value.ofJson json heap).1.ref? = none := by
  cases json with
  | array items => cases h
  | object members => cases h
  | _ => exact ⟨rfl, rfl⟩

/-- Scalar defaults keep any invariant. -/
theorem Invariant.keeps_scalar {ι : Type} [Preorder ι] (I : Invariant ι) (host : Host σ)
    {definition : Definition} (h : definition.Scalar) : I.Keeps host definition := by
  cases definition with
  | shorthand type => trivial
  | deferred thunk => trivial
  | node keywords =>
    refine ⟨fun fallback hfallback i j _ world hholds => ?_, fun transform hcustom => ?_⟩
    · obtain ⟨json, rfl, hscalar⟩ := h.2 fallback hfallback
      obtain ⟨hheap, hvalue⟩ := ofJson_scalar hscalar world.heap
      refine ⟨j, le_refl j, ?_, .scalar hvalue⟩
      have hsame : (((Fallback.literal json).produce host) world).2.heap = world.heap := hheap
      rwa [hsame]
    · rw [h.1] at hcustom
      cases hcustom

/-! ## The discipline -/

/-- The containers owned are in the heap, have their origins among the containers of the
whole value, and the context is within its bounds; the definitions under way and the depth
that is left make up the whole depth. -/
structure Invariant.Nests (originals : List Ref) (whole depth : Nat) (I : Invariant Still)
    (context : Context) (base : Heap) (own : Ref → Prop) : Prop where
  eq : I = territory base own
  own_lt : ∀ ref, own ref → ref < base.size
  origin : ∀ ref, own ref → context.originOf ref ∈ originals
  origins_lt : ∀ origin ∈ context.origins, origin.1 < base.size
  nested : context.Nested originals
  falls : context.visits.Pairwise (· ≥ ·)
  whole : context.visits.length + depth = whole

namespace Invariant.Nests

variable {originals : List Ref} {whole depth : Nat} {I : Invariant Still} {context : Context}
  {base : Heap} {own : Ref → Prop}

theorem visited (h : Nests originals whole (depth + 1) I context base own)
    (hfew : ¬ maxNesting ≤ context.nesting) :
    Nests originals whole depth I context.visited base own :=
  { h with
    nested := h.nested.visited h.falls hfew
    falls := List.pairwise_cons.2 ⟨fun length hlength => h.nested.visits_le length hlength, h.falls⟩
    whole := by
      rw [← h.whole]
      exact Nat.succ_add_eq_add_succ _ _ }

theorem entered (h : Nests originals whole depth I context base own) {ref : Ref} (hown : own ref)
    (hnew : context.originOf ref ∉ context.ancestors) (accessor : Accessor) :
    Nests originals whole depth I (context.entered ref accessor) base own :=
  { h with
    nested :=
      { h.nested with
        tokens := by
          simp [Context.tokens, Context.entered, h.nested.length_path]
        nodup := List.nodup_cons.2 ⟨hnew, h.nested.nodup⟩
        subset := List.cons_subset.2 ⟨h.origin ref hown, h.nested.subset⟩
        visits_le := fun length hlength =>
          Nat.le_succ_of_le (h.nested.visits_le length hlength) } }

/-- The copies of a trial are owned in the trial, and no others. -/
theorem fork (h : Nests originals whole depth I context base own) {heap : Heap} {value : Value}
    (hholds : I.holds .still heap) (howns : I.Owns .still value) :
    Nests originals whole depth
      (territory (value.copyWithOrigins heap).2 fun ref =>
        ∃ original, Ref.Copied (heap.reach value) heap.size original ref)
      (context.fork (value.copyWithOrigins heap).1.2) (value.copyWithOrigins heap).2 fun ref =>
        ∃ original, Ref.Copied (heap.reach value) heap.size original ref := by
  obtain ⟨rfl, -, horigin, horigins, hnested, hfalls, hwhole⟩ := h
  have hfresh : ∀ origin ∈ context.origins, origin.1 < heap.size := fun origin hmem =>
    Nat.lt_of_lt_of_le (horigins origin hmem) hholds.1
  -- What is copied is owned, and so its origin is a container of the whole value.
  have hreach : ∀ ref ∈ heap.reach value, own ref := by
    intro ref hmem
    have hreachable := Heap.mem_reach_iff.1 hmem
    induction hreachable with
    | root hroot => exact howns _ hroot
    | child hparent hchild ih => exact hholds.2.2 _ _ (ih (Heap.mem_reach_iff.2 hparent)) hchild
  refine ⟨rfl, ?_, ?_, fun origin hmem => Context.lt_of_mem_origins_fork hfresh hmem,
    ⟨hnested.tokens, hnested.nodup, hnested.subset, hnested.visits_le, hnested.count_visits⟩,
    hfalls, hwhole⟩
  · rintro ref ⟨original, hcopied⟩
    rw [Value.size_copyWithOrigins]
    exact hcopied.lt
  · rintro ref ⟨original, hcopied⟩
    rw [Context.originOf_fork_of_copied hfresh hcopied]
    exact horigin original (hreach original hcopied.mem)

end Invariant.Nests

/-- The trial is over: what was owned before is as the trial has found it. -/
theorem Invariant.territory_of_fork {base heap heap' : Heap} {own : Ref → Prop} {value : Value}
    (hlt : ∀ ref, own ref → ref < base.size) (h : (territory base own).holds .still heap)
    (h' : (territory (value.copyWithOrigins heap).2 fun ref =>
      ∃ original, Ref.Copied (heap.reach value) heap.size original ref).holds .still heap') :
    (territory base own).holds .still heap' := by
  obtain ⟨hsize, hframe, hclosed⟩ := h
  obtain ⟨hsize', hframe', -⟩ := h'
  -- Only copies are owned in the trial, and they are none of the containers there were.
  have hsame : ∀ ref, ref < heap.size → heap'.fetch ref = heap.fetch ref := by
    intro ref href
    rw [hframe' ref, Value.fetch_copyWithOrigins_of_lt value heap href]
    · rw [Value.size_copyWithOrigins]
      exact Nat.lt_add_right _ href
    · rintro ⟨original, hcopied⟩
      exact Nat.not_le.2 href hcopied.le
  have hgrown : heap.size ≤ heap'.size := by
    rw [Value.size_copyWithOrigins] at hsize'
    exact Nat.le_trans (Nat.le_add_right _ _) hsize'
  refine ⟨Nat.le_trans hsize hgrown, fun ref href hold => ?_, fun parent child hparent hchild => ?_⟩
  · rw [hsame ref (Nat.lt_of_lt_of_le href hsize)]
    exact hframe ref href hold
  · obtain ⟨part, hpart, href⟩ := hchild
    rw [Heap.children, hsame parent (Nat.lt_of_lt_of_le (hlt parent hparent) hsize)] at hpart
    exact hclosed parent child hparent ⟨part, hpart, href⟩

/-- The bounds hold at every call, and the depth is not used up. -/
def Discipline.nesting (host : Host σ) (originals : List Ref) (whole : Nat)
    (hwhole : maxNesting * (originals.length + 1) < whole) :
    Discipline host Definition.Scalar Still where
  fits := fun depth I _ context => ∃ base own, I.Nests originals whole depth context base own
  permitted := fun _ _ session => session.context.Bounded originals
  exhaustible := False
  mono := fun h _ => h
  keeps := fun _ hscalar => Invariant.keeps_scalar _ host hscalar
  permits := by
    rintro depth I _ context world value definition ⟨base, own, h⟩ - - - violations
    have hnested : (context.holding violations).Nested originals :=
      ⟨h.nested.tokens, h.nested.nodup, h.nested.subset, h.nested.visits_le,
        h.nested.count_visits⟩
    refine ⟨hnested, hnested.length_ancestors, hnested.visits_length, fun hfew => ?_⟩
    have hvisited := hnested.visited h.falls hfew
    exact ⟨hvisited, hvisited.visits_length⟩
  spent := by
    rintro I _ context ⟨base, own, h⟩
    have hlength := h.nested.visits_length
    rw [← h.whole] at hwhole
    exact absurd hwhole (Nat.not_lt.2 hlength)
  visited := fun ⟨base, own, h⟩ hfew => ⟨base, own, h.visited hfew⟩
  entered := by
    rintro depth I _ context ref ⟨base, own, h⟩ hown hnew accessor
    obtain rfl := h.eq
    exact ⟨base, own, h.entered hown hnew accessor⟩
  fork := by
    rintro depth I ⟨⟩ context heap value ⟨base, own, h⟩ hholds howns
    refine ⟨_, .still, ⟨_, _, h.fork hholds howns⟩, ⟨Nat.le_refl _, fun _ _ _ => rfl, ?_⟩, ?_, ?_⟩
    · rintro parent child ⟨original, hcopied⟩ hchild
      rcases Value.child_copyWithOrigins value heap hchild with ⟨hlt, -⟩ | ⟨-, hcopy⟩
      · exact absurd hlt (Nat.not_lt.2 hcopied.le)
      · exact hcopy
    · exact fun ref href => Value.ref?_copyWithOrigins value heap href
    · obtain rfl := h.eq
      exact fun _ _ heap' hholds' => ⟨.still, le_refl _,
        Invariant.territory_of_fork h.own_lt hholds hholds'⟩

/-! ## Whole checks -/

/-- Where a check begins, nothing is under way. -/
theorem Invariant.nests_start {heap : Heap} {value : Value} (options : Options) (depth : Nat)
    (hvalue : ∀ ref, heap.Reachable value ref → ref < heap.size) :
    Nests (heap.reach value) depth depth (territory heap (· ∈ heap.reach value)) (.start options)
      heap (· ∈ heap.reach value) where
  eq := rfl
  own_lt := fun ref hmem => hvalue ref (Heap.mem_reach_iff.1 hmem)
  origin := fun _ hmem => hmem
  origins_lt := nofun
  nested := ⟨rfl, List.nodup_nil, List.nil_subset _, nofun, fun _ => Nat.zero_le _⟩
  falls := .nil
  whole := Nat.zero_add _

/-- The containers of a value are no more than the heap has. -/
theorem Heap.length_reach_le {heap : Heap} {value : Value}
    (hvalue : ∀ ref, heap.Reachable value ref → ref < heap.size) :
    (heap.reach value).length ≤ heap.size := by
  have hsub : heap.reach value ⊆ List.range heap.size := fun ref hmem =>
    List.mem_range.2 (hvalue ref (mem_reach_iff.1 hmem))
  simpa using (List.subperm_of_subset (heap.nodup_reach value) hsub).length_le

/-- The depth that a check is given is more than the bound. -/
theorem lt_nestingBound {heap : Heap} {value : Value}
    (hvalue : ∀ ref, heap.Reachable value ref → ref < heap.size) (definition : Definition) :
    maxNesting * ((heap.reach value).length + 1) < nestingBound heap definition := by
  have hlength := Heap.length_reach_le hvalue
  have hproduct := Nat.mul_le_mul_left maxNesting (Nat.add_le_add_right hlength 1)
  have hreserve : 0 < nestingReserve := by decide
  unfold nestingBound
  omega

section Whole

variable {host : Host σ} {value : Value} {definition : Definition} {world : World σ}
  (options : Options) (hvalue : ∀ ref, world.heap.Reachable value ref → ref < world.heap.size)
  (hdefinition : definition.Throughout host Definition.Scalar)
include hvalue hdefinition

/-- With more depth than the bound, and whatever depth is added to it, no call is refused
and the depth is not used up. -/
theorem checkGuarded_nesting {depth : Nat}
    (hdepth : maxNesting * ((world.heap.reach value).length + 1) < depth)
    (refusal : ValidationError) (extra : Nat) :
    checkGuarded host (fun _ _ session => session.context.Bounded (world.heap.reach value))
        refusal depth value definition ⟨.start options, world⟩ =
      checkWithin host (extra + depth) value definition ⟨.start options, world⟩ ∧
    ∀ session, checkWithin host (extra + depth) value definition ⟨.start options, world⟩ ≠
      .error .exhausted session := by
  have hnests := Invariant.nests_start options depth hvalue
  -- The containers of the value are owned, and what they hold is of the value too.
  have hholds : (Invariant.territory world.heap (· ∈ world.heap.reach value)).holds .still
      world.heap := by
    refine ⟨Nat.le_refl _, fun _ _ _ => rfl, fun parent child hparent hchild => ?_⟩
    exact Heap.mem_reach_iff.2 (.child (Heap.mem_reach_iff.1 hparent) hchild)
  have howns : (Invariant.territory world.heap (· ∈ world.heap.reach value)).Owns .still value :=
    fun ref href => Heap.mem_reach_iff.2 (.root href)
  obtain ⟨hsame, hexhausted⟩ := (Discipline.nesting host _ depth hdepth).checkGuarded_eq refusal
    depth extra nofun ⟨_, _, hnests⟩ howns hdefinition hholds
  exact ⟨hsame, fun session h => hexhausted ⟨session, h⟩⟩

end Whole

/-- **At every call of a check the bounds hold, and the check comes to an end**: with any
depth beyond the bound it comes to the same, and does not run out of depth. -/
theorem nested_check (host : Host σ) (options : Options) (value : Value)
    (definition : Definition) (world : World σ)
    (hvalue : ∀ ref, world.heap.Reachable value ref → ref < world.heap.size)
    (hdefinition : definition.Throughout host Definition.Scalar) :
    (∀ depth, maxNesting * ((world.heap.reach value).length + 1) < depth →
      (∀ refusal,
        checkGuarded host (fun _ _ session => session.context.Bounded (world.heap.reach value))
            refusal depth value definition ⟨.start options, world⟩ =
          checkWithin host depth value definition ⟨.start options, world⟩) ∧
      (∀ extra, checkWithin host (extra + depth) value definition ⟨.start options, world⟩ =
        checkWithin host depth value definition ⟨.start options, world⟩) ∧
      ∀ session, checkWithin host depth value definition ⟨.start options, world⟩ ≠
        .error .exhausted session) ∧
    (check host options value definition world).1 ≠ .error .exhausted := by
  constructor
  · intro depth hdepth
    have hmore := checkGuarded_nesting options hvalue hdefinition hdepth
    refine ⟨fun refusal => ?_, fun extra => ?_, ?_⟩
    · simpa using (hmore refusal 0).1
    · -- Both are the guarded check, which does not depend on what is added.
      have hnone := (hmore .exhausted 0).1
      rw [Nat.zero_add] at hnone
      rw [← hnone, (hmore .exhausted extra).1]
    · simpa using (hmore .exhausted 0).2
  · have hnever := (checkGuarded_nesting options hvalue hdefinition
      (lt_nestingBound hvalue definition) .exhausted 0).2
    rw [Nat.zero_add] at hnever
    unfold check
    revert hnever
    generalize checkWithin host (nestingBound world.heap definition) value definition
      ⟨.start options, world⟩ = result
    intro hnever
    cases result with
    | ok value session => nofun
    | error fault session =>
      rintro ⟨⟩
      exact hnever session rfl

/-- An array that holds itself, against a definition that holds itself. -/
theorem nested_check_cyclic :
    let host : Host Unit :=
      { (default : Host Unit) with
        force := fun _ => pure (.node { items := some (.deferred (.host 0)) }) }
    let world : World Unit := ⟨{ containers := #[.array [.array 0]] }, ()⟩
    (∀ refusal, checkGuarded host (fun _ _ session => session.context.Bounded [0]) refusal 200
        (.array 0) (.deferred (.host 0)) ⟨.start {}, world⟩ =
      checkWithin host 200 (.array 0) (.deferred (.host 0)) ⟨.start {}, world⟩) ∧
    (check host {} (.array 0) (.deferred (.host 0)) world).1 ≠ .error .exhausted := by
  intro host world
  have hvalue : ∀ ref, world.heap.Reachable (.array 0) ref → ref < world.heap.size := by
    intro ref hreach
    have hzero : ref = 0 := by
      induction hreach with
      | root hroot => cases hroot; rfl
      | child _ hchild ih =>
        subst ih
        obtain ⟨part, hpart, href⟩ := hchild
        obtain rfl : part = .array 0 := List.mem_singleton.1 hpart
        cases href
        rfl
    rw [hzero]
    decide
  have hmet : ∀ met, Definition.Met host (.deferred (.host 0)) met →
      met = .deferred (.host 0) ∨ met = .node { items := some (.deferred (.host 0)) } := by
    intro met h
    induction h with
    | refl => exact .inl rfl
    | shorthand _ ih => rcases ih with h | h <;> cases h
    | forced _ hforce ih =>
      rcases ih with h | h
      · cases h; cases hforce; exact .inr rfl
      · cases h
    | field _ hschema _ _ ih =>
      rcases ih with h | h
      · cases h
      · cases h; cases hschema
    | item _ hitems ih =>
      rcases ih with h | h
      · cases h
      · cases h; cases hitems; exact .inl rfl
    | alternative _ heither _ ih =>
      rcases ih with h | h
      · cases h
      · cases h; cases heither
  have hscalar : Definition.Throughout host Definition.Scalar (.deferred (.host 0)) := by
    intro met h
    rcases hmet met h with rfl | rfl
    · trivial
    · exact ⟨rfl, nofun⟩
  obtain ⟨hbounds, hends⟩ := nested_check host {} (.array 0) _ world hvalue hscalar
  exact ⟨(hbounds 200 (by decide)).1, hends⟩

end Conform
