import Conform.Proofs.Definition.Recast
import Conform.Proofs.Validation.Interruption

/-!
# The forms of definitions are interchangeable

A check looks at a definition only when it has unfolded it to a node.  So it does the same for
a definition that is recast, at every place where a definition is taken up, also in the trials
of alternatives and in the runs after them.  The two checks are compared in worlds with the
same heap, and in states of the host between which it overlooks the difference.

The bound on the depth of a check is taken from the definition as it is written.  A definition
that comes out of a thunk may be deeper than that shows, so the check of it may run out of
depth first, if the definition is deeper than the whole bound.

## Main definitions

* `Scope.recasting`: the comparison of checks in states between which a host overlooks the
  difference.
* `SameOutcome`: checks that come to the same.

## Main results

* `follows_recast`: the check of a definition recast goes as that of the definition.
* `check_recast`: it comes to the same, and ends with a fault where thunks are too many.
-/

namespace Conform

variable {σ : Type} {host : Host σ} {R : σ → σ → Prop}

namespace Scope

/-- The comparison of checks that stand in the same context, in worlds with the same heap and
related states of the host. -/
def recasting (R : σ → σ → Prop) {left right : Context} (hsame : left = right) :
    Scope σ Still where
  left := left
  right := right
  world := fun _ w₁ w₂ => w₁.heap = w₂.heap ∧ R w₁.env w₂.env
  ref := fun _ => Eq
  exhaustible := True
  ref_mono := fun _ => id
  pathText_eq := congrArg Context.pathText hsame
  asserting_of := fun hasserting => hsame ▸ hasserting
  agree := by
    rintro i w₁ w₂ ⟨hheap, -⟩ r _ rfl
    rw [hheap]
    exact .refl fun _ _ _ _ => rfl
  store := by
    rintro i w₁ w₂ r _ c d ⟨hheap, henv⟩ rfl halike
    obtain rfl := halike.eq_of_eq fun _ _ => id
    exact ⟨congrArg (Heap.store · r c) hheap, henv⟩

variable {left right : Context} {hsame : left = right}

theorem recasting_value_iff {v w : Value} : (recasting R hsame).value .still v w ↔ v = w :=
  ⟨fun h => h.eq_of_eq fun _ _ => id, fun h => h ▸ .refl fun _ _ => rfl⟩

/-- What overlooks differences runs alike. -/
theorem recasting_runs {α : Type} {m : Run σ α} (hm : m.Overlooks R) {P : Still → α → α → Prop}
    (hP : ∀ a, P .still a a) : (recasting R hsame).Runs .still m m P := by
  rintro ⟨⟩ - ⟨heap, env⟩ ⟨_, env'⟩ ⟨rfl, henv⟩
  obtain ⟨hresult, hheap, henv'⟩ := hm heap env env' henv
  exact ⟨.still, le_refl _, ⟨hheap, henv'⟩, hresult ▸ hP _⟩

/-- Fields recast are produced, with the same names. -/
theorem recasting_fields (hhost : host.Overlooks R) {D : Definition → Definition → Prop}
    {fields others : Fields Definition} (h : Fields.Recast host R D fields others) :
    (recasting R hsame).Runs .still (Run.ofForcing (fields.resolve host))
      (Run.ofForcing (others.resolve host)) fun _ =>
        AlikeResult (List.Forall₂ fun x y => x.1 = y.1 ∧ D x.2 y.2) := by
  rintro ⟨⟩ - w₁ w₂ ⟨hheap, henv⟩
  refine ⟨.still, le_refl _, ?_⟩
  cases h with
  | declared hkeys hfields =>
    exact ⟨⟨hheap, henv⟩, .ok (Entries.Alongside.of_keys_eq hkeys hfields)⟩
  | deferred produced after hproduced hafter hkeys hfields =>
    simp only [Run.ofForcing, Fields.resolve, hproduced]
    exact ⟨⟨hheap, hhost.trans henv (hafter _)⟩,
      .ok (Entries.Alongside.of_keys_eq (hkeys _) (hfields _))⟩

/-- The keywords of nodes that say the same correspond. -/
theorem recasting_matches (hhost : host.Overlooks R) {D : Definition → Definition → Prop}
    {first second : Node Definition} (h : Node.Recast host R D first second) (policy : Policy) :
    (recasting R hsame).Matches host host D .still (policy.complete first)
      (policy.complete second) := by
  have hsame : ∀ {α : Type} (argument : Node Definition → α),
      argument first.bare = argument second.bare := fun argument => congrArg argument h.bare
  have hrequired : first.required.getD (!first.optional) =
      second.required.getD (!second.optional) :=
    hsame fun node => node.required.getD (!node.optional)
  have hstrict : first.strict = second.strict := hsame Node.strict
  have hfallback : first.fallback = second.fallback := hsame Node.fallback
  have hcustom : first.custom = second.custom := hsame Node.custom
  refine ⟨hrequired, congrArg (·.getD policy.defaultStrict) hstrict, hsame Node.kind,
    hsame Node.allowed, hsame Node.bounds, hsame Node.require, hsame Node.restrict,
    h.either, h.items, option_rel_imp (fun _ _ => recasting_fields hhost) h.schema, ?_, ?_⟩
  · simp only [Policy.complete, ← hfallback]
    exact option_rel_self fun fallback _ =>
      recasting_runs (hhost.fallback fallback) fun _ => recasting_value_iff.2 rfl
  · simp only [Policy.complete, ← hcustom]
    refine option_rel_self fun transform _ => ?_
    rintro ⟨⟩ - v w hvw
    obtain rfl := recasting_value_iff.1 hvw
    refine recasting_runs (hhost.apply transform v) fun result => ?_
    cases result with
    | ok value => exact .ok (recasting_value_iff.2 rfl)
    | error reason => exact .error

/-- What definitions recast resolve to corresponds; what holds of all definitions less deep
holds of those in the first node. -/
theorem recasting_resolve (hhost : host.Overlooks R) {definition other : Definition}
    (h : Definition.Recast host R maxThunkChain definition other) {P : Definition → Prop}
    (hparts : ∀ part, part.depth < definition.depth → P part) (policy : Policy) :
    (recasting R hsame).Runs .still (Run.ofForcing (resolve host policy definition))
      (Run.ofForcing (resolve host policy other)) fun j =>
        AlikeResult ((recasting R hsame).Matches host host
          (fun d e => P d ∧ Definition.Recast host R maxThunkChain d e) j) := by
  rintro ⟨⟩ - w₁ w₂ ⟨hheap, henv⟩
  obtain ⟨keywords, keywords', env', hless, hfirst, hsecond, henv', hrecast⟩ :=
    h.unfold hhost w₂.env
  have hresult : Run.ofForcing (resolve host policy other) w₂ =
      (.ok (policy.complete keywords'), ⟨w₂.heap, env'⟩) := by
    simp only [Run.ofForcing, resolve, bind, EStateM.bind, hsecond]
    rfl
  rw [resolve, hfirst, hresult]
  exact ⟨.still, le_refl _, ⟨hheap, hhost.trans henv henv'⟩,
    .ok (recasting_matches hhost (hrecast.and fun part hpart => hparts part (hless part hpart)) _)⟩

/-- Checks of related definitions that go alike in every context may be used anywhere. -/
theorem recasting_admits {D : Definition → Definition → Prop} {depth depth' : Nat}
    (hD : ∀ d e, D d e → ∀ (context : Context) (value : Value),
      (recasting R (Eq.refl context)).Follows .still (checkWithin host depth value d)
        (checkWithin host depth' value e) (recasting R (Eq.refl context)).value)
    (context : Context) :
    (recasting R (Eq.refl context)).Admits D (checkWithin host depth) (checkWithin host depth')
      .still := by
  constructor
  case restores => exact checkWithin_restores host _
  case guard =>
    rintro j - r _ rfl
    exact Iff.rfl
  case here =>
    rintro ⟨⟩ - w _ hvw d e hde
    obtain rfl := recasting_value_iff.1 hvw
    exact hD d e hde context w
  case below =>
    rintro j - r _ rfl - accessor ⟨⟩ - w _ hvw d e hde
    obtain rfl := recasting_value_iff.1 hvw
    exact hD d e hde (context.entered r accessor) w
  case aside =>
    rintro ⟨⟩ - w _ hvw d e hde ⟨⟩ - V W ⟨heap, env⟩ ⟨_, env'⟩ ⟨rfl, henv⟩
    obtain rfl := recasting_value_iff.1 hvw
    -- The heaps are the same, and so are the copies.
    let copied := w.copyWithOrigins heap
    have hside : (recasting R (Eq.refl context)).Side .still
        (recasting R (Eq.refl (context.fork copied.1.2))) .still copied.1.2 copied.1.2
        ⟨copied.2, env⟩ ⟨copied.2, env'⟩ :=
      ⟨rfl, rfl, ⟨rfl, henv⟩, id, fun _ _ _ _ hworld => ⟨.still, le_refl _, hworld⟩⟩
    exact Follows.trial hside (hD d e hde _ copied.1.1) V W

end Scope

/-- Depths at which a check of the definition and one of the definition recast come to the
same: equal ones, and any that the definition does not use up. -/
def Definition.Spared (definition : Definition) (depth depth' : Nat) : Prop :=
  depth = depth' ∨ definition.depth ≤ depth ∧ definition.depth ≤ depth'

namespace Definition.Spared

variable {definition : Definition} {depth depth' : Nat}

theorem eq_zero (h : definition.Spared 0 depth') : depth' = 0 := by
  rcases h with heq | hle
  · exact heq.symm
  · exact absurd hle.1 (Nat.not_le.2 definition.depth_pos)

theorem exists_succ (h : definition.Spared (depth + 1) depth') : ∃ less, depth' = less + 1 := by
  rcases h with heq | hle
  · exact ⟨depth, heq.symm⟩
  · exact Nat.exists_eq_add_one.2 (Nat.lt_of_lt_of_le definition.depth_pos hle.2)

/-- A definition that is less deep leaves one more to spare. -/
theorem of_lt {part : Definition} (h : definition.Spared (depth + 1) (depth' + 1))
    (hlt : part.depth < definition.depth) : part.Spared depth depth' := by
  rcases h with heq | hle
  · exact .inl (Nat.succ.inj heq)
  · exact .inr ⟨Nat.le_of_lt_succ (Nat.lt_of_lt_of_le hlt hle.1),
      Nat.le_of_lt_succ (Nat.lt_of_lt_of_le hlt hle.2)⟩

end Definition.Spared

open Check in
/-- **The check of a definition recast goes as that of the definition.** -/
theorem follows_recast (hhost : host.Overlooks R) {definition other : Definition}
    (h : Definition.Recast host R maxThunkChain definition other) {depth depth' : Nat}
    (hdepth : definition.Spared depth depth') (context : Context) (value : Value) :
    (Scope.recasting R (Eq.refl context)).Follows .still (checkWithin host depth value definition)
      (checkWithin host depth' value other) (Scope.recasting R (Eq.refl context)).value := by
  -- The contexts change from call to call, and so the induction is for all of them.
  induction depth generalizing depth' definition other context value with
  | zero =>
    obtain rfl := hdepth.eq_zero
    exact .throw fun _ => trivial
  | succ depth ih =>
    obtain ⟨depth', rfl⟩ := hdepth.exists_succ
    refine .visiting Iff.rfl (.node _ (checkWithin_restores host _) _) fun _ => ?_
    -- Parts are less deep, so each of the two depths has as much to spare for them.
    have hparts : ∀ d e, d.Spared depth depth' ∧ Definition.Recast host R maxThunkChain d e →
        ∀ (context : Context) (value : Value), (Scope.recasting R (Eq.refl context)).Follows .still
          (checkWithin host depth value d) (checkWithin host depth' value e)
            (Scope.recasting R (Eq.refl context)).value :=
      fun d e hde context value => ih hde.2 hde.1 context value
    exact Scope.Follows.node (Scope.recasting_admits hparts context.visited)
      (Scope.recasting_resolve hhost h (fun _ => hdepth.of_lt) _) rfl
        (Scope.recasting_value_iff.2 rfl)

/-! ## Whole checks -/

/-- The same result, with the same value and violations or the same fault, the same heap, and
states of the host between which it overlooks the difference. -/
def SameOutcome (R : σ → σ → Prop) (first second : Except ValidationError Outcome × World σ) :
    Prop :=
  second.1 = first.1 ∧ second.2.heap = first.2.heap ∧ R first.2.env second.2.env

theorem sameOutcome_of_follows {context : Context} {m₁ m₂ : Check σ Value} {world : World σ}
    (h : (Scope.recasting R (Eq.refl context)).Follows .still m₁ m₂
      (Scope.recasting R (Eq.refl context)).value)
    (hrefl : R world.env world.env) :
    SameOutcome R (Check.outcome (m₁ ⟨context, world⟩)) (Check.outcome (m₂ ⟨context, world⟩)) := by
  have hends := h .still (le_refl _) context.violations context.violations world world ⟨rfl, hrefl⟩
  simp only [Scope.recasting, Context.holding_self] at hends
  revert hends
  generalize m₁ ⟨context, world⟩ = r
  generalize m₂ ⟨context, world⟩ = s
  intro hends
  cases hends with
  | ok _ hworld _ hvalue =>
    obtain rfl := hvalue.eq_of_eq fun _ _ => id
    exact ⟨rfl, hworld.1.symm, hworld.2⟩
  | error _ hworld _ _ => exact ⟨rfl, hworld.1.symm, hworld.2⟩
  | stopped hleft hright _ =>
    -- Both stand in one context, and so the second cannot stop where the first goes on.
    have hboth : context.asserting = false := hleft
    rw [show context.asserting = true from hright] at hboth
    cases hboth

/-- A check that does not run out of depth is the same at any greater depth. -/
theorem outcome_of_ne_exhausted {depth depth' : Nat} (hle : depth ≤ depth') {value : Value}
    {definition : Definition} {session : Session σ}
    (h : (Check.outcome (checkWithin host depth value definition session)).1 ≠
      .error .exhausted) :
    checkWithin host depth value definition session =
      checkWithin host depth' value definition session := by
  obtain ⟨_, after, rfl, hfault⟩ | hsame := checkWithin_sameUnless hle value definition session
  · rw [hfault] at h
    exact absurd rfl h
  · exact hsame

/-- **The forms of definitions are interchangeable.**  Where a definition is recast, with no
more than so many thunks in a row at any place, a check at any depth that is enough for the
definition comes to what the check of the definition comes to.  At the depth that it is given
it comes to the same too, or runs out of depth, which it does only if the definition is deeper
than that.  A check that comes upon a definition with more thunks in a row ends with that
fault. -/
theorem check_recast (hhost : host.Overlooks R) {definition other : Definition}
    (h : Definition.Recast host R maxThunkChain definition other) (options : Options)
    (value : Value) (world : World σ) :
    (∀ depth, definition.depth ≤ depth →
      SameOutcome R (check host options value definition world)
        (Check.outcome (checkWithin host depth value other ⟨.start options, world⟩))) ∧
    (SameOutcome R (check host options value definition world)
        (check host options value other world) ∨
      nestingBound world.heap other < definition.depth ∧
        (check host options value other world).1 = .error .exhausted) ∧
    ∀ chained : Definition,
      TakesUp host (fun reached session =>
          reached.Chained host (maxThunkChain + 1) session.world.env)
        (nestingBound world.heap chained) value chained ⟨.start options, world⟩ →
      (check host options value chained world).1 =
        .error (.definition (.thunkChainTooDeep maxThunkChain)) := by
  have hsame : ∀ {depth depth' : Nat}, definition.Spared depth depth' → SameOutcome R
      (Check.outcome (checkWithin host depth value definition ⟨.start options, world⟩))
      (Check.outcome (checkWithin host depth' value other ⟨.start options, world⟩)) :=
    fun hdepth => sameOutcome_of_follows (follows_recast hhost h hdepth _ value) (hhost.refl _)
  have hbound : definition.depth ≤ nestingBound world.heap definition := by
    unfold nestingBound
    omega
  refine ⟨fun depth hdepth => hsame (.inr ⟨hbound, hdepth⟩), ?_, fun chained hreached => ?_⟩
  · by_cases hle : definition.depth ≤ nestingBound world.heap other
    · exact .inl (hsame (.inr ⟨hbound, hle⟩))
    by_cases hexhausted : (check host options value other world).1 = .error .exhausted
    · exact .inr ⟨Nat.not_le.1 hle, hexhausted⟩
    · -- With the depth of the other check it would come to what it comes to.
      have hmore : nestingBound world.heap other ≤ nestingBound world.heap definition :=
        Nat.le_trans (Nat.le_of_not_le hle) hbound
      refine .inl ?_
      rw [check, check, outcome_of_ne_exhausted hmore hexhausted]
      exact hsame (.inl rfl)
  · obtain ⟨after, hfault⟩ := fault_of_takesUp
      (fun recurse value _ _ hchained => node_of_chained hchained recurse value) hreached
    rw [check, hfault]
    rfl

/-- A host that counts what it produces.  Thunks up to 63 yield the next one, the last of them a
node with lazy fields; the one after yields itself; and one more yields a type. -/
def countingHost : Host Nat :=
  { (default : Host Nat) with
    force := fun code count => .ok
      (if code < 63 then .deferred (.host (code + 1))
        else if code = 63 then .node { schema := some (.deferred 0) }
        else if code = 64 then .deferred (.host 64)
        else .shorthand .number) (count + 1)
    fields := fun _ count => .ok [("a", .node (.ofType .string)), ("b", .node
      { either := some [.deferred (.host 65), .node { items := some (.shorthand .string) }] })]
        (count + 1) }

/-- An object with a text and an array, which meets only the second of two alternatives: one
of the definitions is written out, the other comes out of 64 thunks and names its fields when
they are needed.  With another thunk in front the check ends. -/
theorem check_recast_chain :
    let texts : Definition := .node { items := some (.node (.ofType .string)) }
    let definition : Definition := .node { schema := some (.declared
      [("a", .shorthand .string), ("b", .node { either := some [.shorthand .number, texts] })]) }
    let world : World Nat := ⟨{ containers := #[
      .object (.ofList [("a", .string "x"), ("b", .array 1)]), .array [.string "y"]] }, 0⟩
    let found := fun definition => check countingHost {} (.object 0) definition world
    SameOutcome (fun _ _ => True) (found definition) (found (.deferred (.host 0))) ∧
      (found (.deferred (.host 64))).1 =
        .error (.definition (.thunkChainTooDeep maxThunkChain)) := by
  intro texts definition world found
  have hhost : countingHost.Overlooks fun _ _ => True :=
    ⟨fun _ => trivial, fun _ _ => trivial, fun _ _ _ _ _ => ⟨rfl, rfl, trivial⟩,
      fun _ _ _ _ _ _ => ⟨rfl, rfl, trivial⟩⟩
  have hrecast : ∀ left, left < 64 → Definition.Recast countingHost (fun _ _ => True) (left + 1)
      definition (.deferred (.host (63 - left))) := by
    intro left hleft
    induction left with
    | zero =>
      refine .forced (fun _ => .node { schema := some (.deferred 0) }) (· + 1) (fun _ => rfl)
        (fun _ => trivial) fun _ => .node rfl (.some (.deferred _ (· + 1) (fun _ => rfl)
          (fun _ => trivial) (fun _ => rfl) fun _ => ?_)) .none .none
      -- The fields that are produced: a type spelled out, and alternatives recast in their turn.
      refine .cons (.spelled .string) (.cons (.node rfl .none .none (.some ?_)) .nil)
      refine .cons (.forced (fun _ => .shorthand .number) (· + 1) (fun _ => rfl) (fun _ => trivial)
        fun _ => .same .number) (.cons (.node rfl .none (.some (.named .string)) .none) .nil)
    | succ left ih =>
      refine .forced (fun _ => .deferred (.host (63 - left))) (· + 1) (fun count => ?_)
        (fun _ => trivial) fun _ => ih (by omega)
      have hmore : 63 - (left + 1) < 63 := by omega
      have hnext : 63 - (left + 1) + 1 = 63 - left := by omega
      simp only [Thunk.force, countingHost, if_pos hmore, hnext]
  have hchained : ∀ count env,
      Definition.Chained countingHost (count + 1) (.deferred (.host 64)) env := by
    intro count
    induction count with
    | zero => exact fun _ => .one
    | succ count ih => exact fun env => .more rfl (ih (env + 1))
  obtain ⟨-, hsame, hchain⟩ := check_recast hhost (hrecast 63 (by omega)) {} (.object 0) world
  refine ⟨hsame.resolve_right fun hdeep => ?_, hchain _ (takesUp_self (by decide) (hchained 64 0))⟩
  exact absurd hdeep.1 (by decide)

end Conform
