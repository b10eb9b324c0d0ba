import Conform.Proofs.Validation.Apart
import Conform.Proofs.Validation.Evolution
import Conform.Proofs.Validation.Policy
import Conform.Proofs.Validation.Totality

/-!
# The limit on left recursion

A node may ask for one alternative, whose node asks for one alternative, and so on.  All of
these are taken up at one place of the value, and there may be so many of them and no more.
Each is tried on a copy of the value, where the next is tried on a copy of the copy, and is then
checked once more on the value itself, if the trial was clean.  So the number of checks doubles
with each of them.

Yet they come to what the innermost definition comes to.  If that finds nothing then neither
does any of them, and the value is left as by one check of the definition.  If it finds
something then each of them complains of what the next has found, and only copies have been
changed.  And if they are too many, all that comes of them is the fault of the definition.

## Main definitions

* `Definition.sole`: a definition as the sole alternative of the sole alternative, and so on.
* `Violation.tower`: a complaint of a complaint, and so on.
* `Heap.SameSince`: heaps that are the same but for the containers made since.

## Main results

* `Check.findings_sole`: what is found on the value, if there is room for all of them.
* `Check.findings_sole_of_le`: they end with a fault, if there is not.
* `Check.sameSince_sole`: what is left of the value, if nothing is found.
* `check_sole`: what whole checks come to.
-/

namespace Conform

variable {σ : Type}

/-! ## One alternative in another -/

namespace Definition

/-- The definition as the sole alternative of a node that is the sole alternative of a node, so
many times. -/
def sole (definition : Definition) : Nat → Definition
  | 0 => definition
  | times + 1 => .node { either := some [definition.sole times] }

theorem depth_sole (definition : Definition) (times : Nat) :
    (definition.sole times).depth = definition.depth + times := by
  induction times with
  | zero => rfl
  | succ times ih =>
    rw [sole, depth_node]
    simp only [Node.parts, Option.toList_none, Option.getD_some, List.nil_append, List.map_cons,
      List.map_nil, List.foldl_cons, List.foldl_nil, Nat.zero_max, ih]
    rfl

theorem written_sole {definition : Definition} (h : definition.Written) (times : Nat) :
    (definition.sole times).Written := by
  induction times with
  | zero => exact h
  | succ times ih =>
    refine written_node_iff.2 ⟨rfl, nofun, nofun, nofun, nofun, ?_⟩
    rintro _ ⟨⟩
    exact List.forall_mem_singleton.2 ih

end Definition

namespace Violation

/-- Violations as what the sole alternative has found, in a complaint about there being no
other, so many times. -/
def tower (path : String) (violations : List Violation) : Nat → List Violation
  | 0 => violations
  | times + 1 => [.ofComplaint path .noAlternative [tower path violations times]]

/-- Where there are no violations, there is nothing to complain about. -/
def raised (path : String) (times : Nat) (violations : List Violation) : List Violation :=
  if violations.isEmpty then [] else tower path violations times

theorem raised_of_ne_nil {violations : List Violation} (h : violations ≠ []) (path : String)
    (times : Nat) : raised path times violations = tower path violations times :=
  if_neg fun hempty => h (List.isEmpty_iff.1 hempty)

theorem tower_ne_nil {violations : List Violation} (h : violations ≠ []) (path : String)
    (times : Nat) : tower path violations times ≠ [] := by
  cases times with
  | zero => exact h
  | succ times => exact List.cons_ne_nil _ _

theorem raised_zero (path : String) (violations : List Violation) :
    raised path 0 violations = violations := by
  cases violations <;> rfl

theorem raised_one_raised (path : String) (times : Nat) (violations : List Violation) :
    raised path 1 (raised path times violations) = raised path (times + 1) violations := by
  by_cases h : violations = []
  · subst h
    rfl
  · rw [raised_of_ne_nil h, raised_of_ne_nil h, raised_of_ne_nil (tower_ne_nil h path times)]
    rfl

end Violation

namespace Check

variable {host : Host σ} {value : Value} {definition : Definition} {session : Session σ}

/-- A node that asks for nothing but alternatives asks for them, where there is a value. -/
theorem node_either (recurse : Recurse σ) (hpresent : value.isAbsent = false)
    (definitions : List Definition) :
    node host recurse value (.node { either := some definitions }) =
      alternatives recurse value [] definitions := by
  have hresolve : ∀ policy : Policy,
      ofForcing (resolve host policy (.node { either := some definitions })) =
        (pure (policy.complete { either := some definitions }) : Check σ Resolved) := fun _ => rfl
  have hsupply : ∀ policy : Policy,
      supply host (policy.complete { either := some definitions }) value =
        (pure value : Check σ Value) := by
    intro policy
    cases value <;> rfl
  have hdemands : ∀ policy : Policy,
      demands host recurse (policy.complete { either := some definitions }) value =
        alternatives recurse value [] definitions := by
    intro policy
    simp only [demands, hpresent, keywords, Policy.complete, type, oneOf, bounds, either, schema,
      require, restrict, items, custom, List.foldlM_cons, List.foldlM_nil, pure_bind, bind_pure]
    rfl
  simp only [node, hresolve, hsupply, hdemands, pure_bind]
  rfl

end Check

/-! ## Sessions that go on -/

namespace Session.Sound

variable {value : Value} {session middle : Session σ}

/-- Where a whole check begins, no container is on the way and none has an origin. -/
theorem start (options : Options) {world : World σ} (hvalue : world.heap.Holds value) :
    (Session.mk (Context.start options) world).Sound value :=
  ⟨hvalue, nofun, nofun⟩

theorem visited (h : session.Sound value) :
    (Session.mk session.context.visited session.world).Sound value :=
  ⟨h.holds, h.within.ancestors, h.within.origins⟩

theorem fork (h : session.Sound value) :
    (Session.mk (session.context.fork []) session.world).Sound value := by
  refine ⟨h.holds, h.within.ancestors, fun origin horigin => ?_⟩
  rw [Context.origins_fork, List.map_nil, List.append_nil] at horigin
  exact h.within.origins origin horigin

/-- A session stays sound when containers are made. -/
theorem untouched (h : session.Sound value) (hcontext : middle.context = session.context)
    (hmiddle : (Invariant.untouched session.world.heap).holds .still middle.world.heap) :
    middle.Sound value where
  holds := fun ref hreach => Nat.lt_of_lt_of_le
    (h.holds ref (Invariant.reachable_of_untouched h.holds hmiddle hreach)) hmiddle.1
  within := hcontext ▸ h.within.mono hmiddle.1

end Session.Sound

namespace Check

variable {host : Host σ} {value : Value} {definition : Definition} {session middle : Session σ}

/-! ## What is found -/

theorem findings_eq_outcome (recurse : Recurse σ) (value : Value) (session : Session σ)
    (definition : Definition) :
    findings recurse value session definition =
      (outcome (recurse value definition ⟨session.context.fork [], session.world⟩)).1.map
        Outcome.violations := by
  rw [findings, result_trial]
  cases recurse value definition ⟨session.context.fork [], session.world⟩ <;> rfl

/-- Containers that have been made do not change what is found. -/
theorem findings_of_untouched (hsound : session.Sound value)
    (hcontext : middle.context = session.context)
    (hmiddle : (Invariant.untouched session.world.heap).holds .still middle.world.heap)
    (hdefinition : definition.Throughout host (Definition.Repeatable host)) (depth : Nat) :
    findings (checkWithin host depth) value middle definition =
      findings (checkWithin host depth) value session definition := by
  -- Both are what a trial comes to that begins where the containers have been made.
  rw [← result_tryAlternative hsound hcontext hmiddle hdefinition depth,
    ← result_tryAlternative (hsound.untouched hcontext hmiddle) rfl
      Invariant.holds_untouched_self hdefinition depth]

section Sole

variable (hsound : session.Sound value) (hcollecting : session.context.asserting = false)
  (hdefinition : definition.Throughout host (Definition.Repeatable host)) (depth : Nat)

include hsound hcollecting hdefinition

/-- **A sole alternative** is taken if nothing is found, is complained about if something is,
and is a fault if that is what comes of it. -/
theorem settles_sole :
    (findings (checkWithin host depth) value session definition = .ok [] ∧
      ∃ middle result after, middle.context = session.context ∧
        (Invariant.untouched session.world.heap).holds .still middle.world.heap ∧
        checkWithin host depth value definition middle = .ok result after ∧
        after.context = session.context ∧
        alternatives (checkWithin host depth) value [] [definition] session =
          .ok result after) ∨
    (∃ violations world, findings (checkWithin host depth) value session definition =
        .ok violations ∧ violations ≠ [] ∧
      (Invariant.untouched session.world.heap).holds .still world.heap ∧
      alternatives (checkWithin host depth) value [] [definition] session =
        .ok value ⟨session.context.holding (session.context.violations ++
          [.ofComplaint session.context.pathText .noAlternative [violations]]), world⟩) ∨
    ∃ fault after, findings (checkWithin host depth) value session definition = .error fault ∧
      (Invariant.untouched session.world.heap).holds .still after.world.heap ∧
      alternatives (checkWithin host depth) value [] [definition] session =
        .error fault after := by
  have hsettles := settles_alternatives hsound depth (List.forall_mem_singleton.2 hdefinition)
  revert hsettles
  generalize hrun : alternatives (checkWithin host depth) value [] [definition] session = r
  generalize hdefinitions : [definition] = definitions
  intro hsettles
  -- Before the only alternative there is none, and none has failed.
  have honly : ∀ {before rest : List Definition} {alternative : Definition},
      [definition] = before ++ alternative :: rest → before = [] ∧ alternative = definition := by
    intro before rest alternative heq
    cases before with
    | nil => exact ⟨rfl, (List.cons.inj heq).1.symm⟩
    | cons first before =>
      exact absurd (List.cons.inj heq).2.symm (List.append_ne_nil_of_right_ne_nil _ nofun)
  cases hsettles with
  | clean hfails hclean hcontext hmiddle hagain hafter =>
    obtain ⟨-, rfl⟩ := honly hdefinitions
    exact .inl ⟨hclean, _, _, _, hcontext, hmiddle, hagain, hafter, rfl⟩
  | failed hfails _ hworld =>
    subst hdefinitions
    obtain _ | ⟨⟨hfindings, hviolations⟩, hnone⟩ := hfails
    cases hnone
    exact .inr (.inl ⟨_, _, hfindings, hviolations, hworld, rfl⟩)
  | stopped _ hasserting _ =>
    rw [hcollecting] at hasserting
    cases hasserting
  | faulty hfails hfault _ hafter =>
    obtain ⟨-, rfl⟩ := honly hdefinitions
    exact .inr (.inr ⟨_, _, hfault, hafter, rfl⟩)

/-- If it finds nothing, it is taken: it is checked once more, after its trial. -/
theorem alternatives_of_clean
    (hclean : findings (checkWithin host depth) value session definition = .ok []) :
    ∃ middle result after, middle.context = session.context ∧
      (Invariant.untouched session.world.heap).holds .still middle.world.heap ∧
      checkWithin host depth value definition middle = .ok result after ∧
      after.context = session.context ∧
      alternatives (checkWithin host depth) value [] [definition] session =
        .ok result after := by
  obtain ⟨-, htaken⟩ | ⟨_, _, hfound, hviolations, -⟩ | ⟨_, _, hfault, -⟩ :=
    settles_sole hsound hcollecting hdefinition depth
  · exact htaken
  · rw [hclean] at hfound
    exact absurd (Except.ok.inj hfound).symm hviolations
  · rw [hclean] at hfault
    cases hfault

/-- If it finds something, there is a complaint of that. -/
theorem alternatives_of_violations {violations : List Violation}
    (hfound : findings (checkWithin host depth) value session definition = .ok violations)
    (hviolations : violations ≠ []) :
    ∃ world, (Invariant.untouched session.world.heap).holds .still world.heap ∧
      alternatives (checkWithin host depth) value [] [definition] session =
        .ok value ⟨session.context.holding (session.context.violations ++
          [.ofComplaint session.context.pathText .noAlternative [violations]]), world⟩ := by
  obtain ⟨hclean, -⟩ | ⟨_, world, hfound', -, hworld, hend⟩ | ⟨_, _, hfault, -⟩ :=
    settles_sole hsound hcollecting hdefinition depth
  · rw [hfound] at hclean
    exact absurd (Except.ok.inj hclean) hviolations
  · rw [hfound] at hfound'
    cases hfound'
    exact ⟨world, hworld, hend⟩
  · rw [hfound] at hfault
    cases hfault

/-- If it ends with a fault, so do the alternatives. -/
theorem alternatives_of_fault {fault : ValidationError}
    (hfault : findings (checkWithin host depth) value session definition = .error fault) :
    ∃ after, (Invariant.untouched session.world.heap).holds .still after.world.heap ∧
      alternatives (checkWithin host depth) value [] [definition] session =
        .error fault after := by
  obtain ⟨hclean, -⟩ | ⟨_, _, hfound, -⟩ | ⟨_, after, hfault', hafter, hend⟩ :=
    settles_sole hsound hcollecting hdefinition depth
  · rw [hfault] at hclean
    cases hclean
  · rw [hfault] at hfound
    cases hfound
  · rw [hfault] at hfault'
    cases hfault'
    exact ⟨after, hafter, hend⟩

end Sole

/-- Where one more definition may be taken up, a sole alternative finds what it finds there. -/
theorem findings_either (hsound : session.Sound value) (hpresent : value.isAbsent = false)
    (hfew : ¬ maxNesting ≤ session.context.nesting)
    (hdefinition : definition.Throughout host (Definition.Repeatable host)) (depth : Nat) :
    findings (checkWithin host (depth + 1)) value session
        (.node { either := some [definition] }) =
      (findings (checkWithin host depth) value ⟨session.context.visited, session.world⟩
        definition).map (Violation.raised session.context.pathText 1) := by
  -- The trial takes up the node first and then tries the alternative, in a fork of a fork.
  let inner : Session σ := ⟨(session.context.fork []).visited, session.world⟩
  have hsame : findings (checkWithin host depth) value inner definition =
      findings (checkWithin host depth) value ⟨session.context.visited, session.world⟩
        definition := by
    have hfork : (session.context.fork []).visited.fork [] = session.context.visited.fork [] :=
      fork_fork session.context.visited []
    rw [findings_eq_outcome, findings_eq_outcome, hfork]
  have hrun : outcome (checkWithin host (depth + 1) value (.node { either := some [definition] })
        ⟨session.context.fork [], session.world⟩) =
      outcome (alternatives (checkWithin host depth) value [] [definition] inner) := by
    rw [checkWithin, node_either _ hpresent]
    exact outcome_visiting hfew
  rw [findings_eq_outcome, hrun, ← hsame]
  have hinner : inner.Sound value := hsound.fork.visited
  cases hfindings : findings (checkWithin host depth) value inner definition with
  | error fault =>
    obtain ⟨_, -, hend⟩ := alternatives_of_fault hinner rfl hdefinition depth hfindings
    rw [hend]
    rfl
  | ok violations =>
    by_cases hviolations : violations = []
    · subst hviolations
      obtain ⟨_, _, _, -, -, -, hafter, hend⟩ :=
        alternatives_of_clean hinner rfl hdefinition depth hfindings
      rw [hend]
      change Except.ok _ = Except.ok _
      rw [hafter]
      rfl
    · obtain ⟨_, -, hend⟩ :=
        alternatives_of_violations hinner rfl hdefinition depth hfindings hviolations
      rw [hend]
      change Except.ok _ = Except.ok _
      rw [Violation.raised_of_ne_nil hviolations]
      rfl

/-- Where there is no room, nothing is found but that. -/
theorem findings_of_crowded (hmany : maxNesting ≤ session.context.nesting) (depth : Nat) :
    findings (checkWithin host (depth + 1)) value session definition =
      .error (.definition (.leftRecursion session.context.pathText)) := by
  have hnesting : maxNesting ≤ (session.context.fork []).nesting := hmany
  have hrun : checkWithin host (depth + 1) value definition
      ⟨session.context.fork [], session.world⟩ =
        .error (.definition (.leftRecursion session.context.pathText))
          ⟨session.context.fork [], session.world⟩ := by
    simp only [checkWithin, visiting, readContext, bind, EStateM.bind, if_pos hnesting]
    rfl
  rw [findings_eq_outcome, hrun]
  rfl

/-- It does not matter that one more definition is under way. -/
theorem findings_visited (hroom : session.context.Roomy 2)
    (hstraight : definition.Throughout host Definition.Straight) (depth : Nat) :
    findings (checkWithin host depth) value ⟨session.context.visited, session.world⟩ definition =
      findings (checkWithin host depth) value session definition := by
  rw [findings_eq_outcome, findings_eq_outcome]
  exact congrArg (fun result => Except.map Outcome.violations result.1)
    (outcome_crowded depth ((hroom.mono (Nat.le_succ 1)).fork []) (hroom.visited.fork [])
      hstraight value session.world)

/-- **What sole alternatives find**, where there is room for all of them and for the definition:
each complains of what the next has found, if there is anything. -/
theorem findings_sole (hsound : session.Sound value) (hpresent : value.isAbsent = false)
    (hwritten : definition.Written) (hstraight : definition.Throughout host Definition.Straight)
    (depth times : Nat) (hroom : session.context.Roomy (times + 1)) :
    findings (checkWithin host (depth + times)) value session (definition.sole times) =
      (findings (checkWithin host depth) value session definition).map
        (Violation.raised session.context.pathText times) := by
  -- The session goes on with every alternative, and there is room for one less in it; that the
  -- definition itself stands further inside does not show.
  induction times generalizing session with
  | zero =>
    rw [Definition.sole, Nat.add_zero]
    cases findings (checkWithin host depth) value session definition with
    | ok violations => exact congrArg Except.ok (Violation.raised_zero _ violations).symm
    | error fault => rfl
  | succ times ih =>
    have hrest := (Definition.written_sole hwritten times).throughout host
    have hfew : ¬ maxNesting ≤ session.context.nesting := Nat.not_le.2 hroom.nesting_lt
    have hvisited : session.context.Roomy 2 := hroom.mono (Nat.le_add_left 2 times)
    rw [Definition.sole, ← Nat.add_assoc, findings_either hsound hpresent hfew hrest,
      ih hsound.visited hroom.visited, findings_visited hvisited hstraight]
    cases findings (checkWithin host depth) value session definition with
    | ok violations => exact congrArg Except.ok (Violation.raised_one_raised _ times violations)
    | error fault => rfl

/-- **Sole alternatives that are too many** end with a fault. -/
theorem findings_sole_of_le (hsound : session.Sound value) (hpresent : value.isAbsent = false)
    (hwritten : definition.Written) (depth times : Nat)
    (hmany : maxNesting ≤ session.context.nesting + times) :
    findings (checkWithin host (depth + 1 + times)) value session (definition.sole times) =
      .error (.definition (.leftRecursion session.context.pathText)) := by
  -- With every alternative that is taken up one more is under way and one less is to come.
  induction times generalizing session with
  | zero => exact findings_of_crowded hmany depth
  | succ times ih =>
    by_cases hfew : maxNesting ≤ session.context.nesting
    · exact findings_of_crowded hfew (depth + 1 + times)
    · have hrest := (Definition.written_sole hwritten times).throughout host
      have hnesting : session.context.visited.nesting = session.context.nesting + 1 := by
        simp [Context.nesting, Context.visited]
      have hvisited : maxNesting ≤ session.context.visited.nesting + times := by omega
      rw [Definition.sole, ← Nat.add_assoc, findings_either hsound hpresent hfew hrest,
        ih hsound.visited hvisited]
      rfl

end Check

/-! ## What is left of the value -/

/-- Two heaps that have grown from one, and what has become of a value in each, are the same but
for the containers that were made since.  What the value leads to is paired off with itself. -/
def Heap.SameSince (base : Heap) (value : Value) (left : Heap) (v : Value) (right : Heap)
    (w : Value) : Prop :=
  ∃ ref, base.Paired left right (base.Touchable value) ref ∧
    (∀ r, base.Reachable value r → ref r r) ∧ Value.Alike ref v w

namespace Check

variable {host : Host σ} {value : Value} {definition : Definition} {session middle : Session σ}

/-- With containers that have been made, a check that finds nothing comes to the same. -/
theorem sameSince_of_clean (hsound : session.Sound value)
    (hdefinition : definition.Throughout host (Definition.Repeatable host)) {depth : Nat}
    {result : Value} {world : World σ}
    (hclean : outcome (checkWithin host depth value definition session) = (.ok ⟨result, []⟩, world))
    (hcontext : middle.context = session.context)
    (hmiddle : (Invariant.untouched session.world.heap).holds .still middle.world.heap) :
    ∃ result' after, checkWithin host depth value definition middle = .ok result' after ∧
      after.context = session.context ∧
      session.world.heap.SameSince value after.world.heap result' world.heap result := by
  obtain ⟨context, base, env'⟩ := session
  obtain ⟨context', heap, env⟩ := middle
  obtain rfl : context = context' := hcontext.symm
  obtain ⟨hvalue, hwithin⟩ := hsound
  -- What the value leads to holds what it held, and what is made later is paired off in order.
  let ρ := Renaming.apart hvalue hmiddle.1
  have hstands : ρ.Stands 0 context context := Renaming.apart_stands hvalue hmiddle.1 hwithin
  have hworld : ρ.World 0 (⟨heap, env⟩ : World σ) ⟨base, env'⟩ :=
    Renaming.apart_world hvalue hmiddle.1 fun ref hreach =>
      Invariant.fetch_eq_of_untouched hmiddle (hvalue ref hreach)
  -- The comparison is of two runs of one definition, so what the value leads to stands for itself.
  have hself : ∀ ref, base.Reachable value ref → ρ.ref 0 ref ref :=
    fun _ hreach => .inl ⟨rfl, hreach⟩
  have hends : (hstands.scope σ).Ends 0 (hstands.scope σ).value context.violations
      context.violations (checkWithin host depth value definition ⟨context, ⟨heap, env⟩⟩)
      (checkWithin host depth value definition ⟨context, ⟨base, env'⟩⟩) :=
    hstands.follows depth (.refl fun ref href => hself ref (.root href)) hdefinition 0
      (Nat.le_refl _) context.violations context.violations _ _ hworld
  revert hends hclean
  generalize checkWithin host depth value definition _ = r
  generalize checkWithin host depth value definition _ = s
  intro hclean hends
  cases hends with
  | @ok a b added j w₁ w₂ _ hworld _ hab =>
    obtain ⟨hok, rfl⟩ := Prod.mk.inj hclean
    obtain ⟨rfl, hviolations⟩ := Outcome.mk.inj (Except.ok.inj hok)
    obtain ⟨-, rfl⟩ := List.append_eq_nil_iff.1 hviolations
    refine ⟨a, _, rfl, congrArg context.holding (List.append_nil _), ρ.ref j,
      Renaming.apart_paired hvalue hmiddle.1 hworld,
      fun ref hreach => Renaming.ref_mono (Nat.zero_le j) (hself ref hreach), hab⟩
  | error => cases hclean
  | stopped hleft hright _ =>
    have hboth : context.asserting = false := hleft
    rw [show context.asserting = true from hright] at hboth
    cases hboth

/-- What is inside a definition that has been taken up ends with the context as it was. -/
theorem visiting_of_ok {m : Check σ Value} {result : Value} {after : Session σ}
    (hfew : ¬ maxNesting ≤ session.context.nesting)
    (hok : m ⟨session.context.visited, session.world⟩ = .ok result after)
    (hcontext : after.context = session.context.visited) :
    visiting m session = .ok result ⟨session.context, after.world⟩ := by
  have hok : m { session with context := session.context.visited } = .ok result after := hok
  simp only [Context.visited] at hok hcontext
  simp only [visiting, readContext, bind, EStateM.bind, if_neg hfew, bracket, hok, hcontext]
  rfl

/-- **Sole alternatives leave the value** as one check of the definition does, where nothing is
found, also when containers have been made before. -/
theorem sameSince_sole (hsound : session.Sound value) (hpresent : value.isAbsent = false)
    (hwritten : definition.Written)
    (hstraight : definition.Throughout host Definition.Straight) {depth : Nat} {result : Value}
    {world : World σ}
    (hclean : outcome (checkWithin host depth value definition session) = (.ok ⟨result, []⟩, world))
    (times : Nat) (hroom : session.context.Roomy (times + 1))
    (hfresh : session.context.fork [] = session.context)
    (hcontext : middle.context = session.context)
    (hmiddle : (Invariant.untouched session.world.heap).holds .still middle.world.heap) :
    ∃ result' after, checkWithin host (depth + times) value (definition.sole times) middle =
        .ok result' after ∧ after.context = session.context ∧
      session.world.heap.SameSince value after.world.heap result' world.heap result := by
  -- At every alternative the trial leaves containers behind, and the run after it begins with
  -- these; the check of the definition that it is compared with stays where it is.
  induction times generalizing session middle with
  | zero => exact sameSince_of_clean hsound (hwritten.throughout host) hclean hcontext hmiddle
  | succ times ih =>
    let inside (session : Session σ) : Session σ := ⟨session.context.visited, session.world⟩
    have hrest := (Definition.written_sole hwritten times).throughout host
    have hfew : ¬ maxNesting ≤ middle.context.nesting := by
      rw [hcontext]
      exact Nat.not_le.2 hroom.nesting_lt
    have hinside : (inside middle).context = (inside session).context :=
      congrArg Context.visited hcontext
    have hfresh' : (inside session).context.fork [] = (inside session).context :=
      congrArg Context.visited hfresh
    -- The definition finds nothing here either, so the alternative is taken and run again.
    have hclean' : outcome (checkWithin host depth value definition (inside session)) =
        (.ok ⟨result, []⟩, world) := by
      have hone : session.context.Roomy 1 := hroom.mono (Nat.le_add_left 1 _)
      have hone' : session.context.visited.Roomy 1 := hroom.visited.mono (Nat.le_add_left 1 _)
      exact (outcome_crowded depth hone hone' hstraight value session.world).trans hclean
    have hnothing : findings (checkWithin host (depth + times)) value (inside middle)
        (definition.sole times) = .ok [] := by
      rw [findings_of_untouched hsound.visited hinside hmiddle hrest,
        findings_sole hsound.visited hpresent hwritten hstraight depth times hroom.visited,
        findings_eq_outcome, hfresh', hclean']
      rfl
    have hcollecting : (inside middle).context.asserting = false := by
      rw [hinside, ← hfresh']
      rfl
    have hsound' : (inside middle).Sound value := (hsound.untouched hcontext hmiddle).visited
    obtain ⟨next, result', after, hnext, hadded, hagain, -, hend⟩ :=
      alternatives_of_clean hsound' hcollecting hrest (depth + times) hnothing
    obtain ⟨_, _, hagain', hafter, hsame⟩ := ih hsound.visited hclean' hroom.visited hfresh'
      (hnext.trans hinside) (Invariant.untouched_trans hmiddle hadded)
    rw [hagain] at hagain'
    cases hagain'
    refine ⟨result', ⟨session.context, after.world⟩, ?_, rfl, hsame⟩
    rw [Definition.sole, ← Nat.add_assoc, checkWithin, node_either _ hpresent, ← hcontext]
    exact visiting_of_ok hfew hend (hafter.trans hinside.symm)

end Check

/-! ## Whole checks -/

section Whole

variable {host : Host σ} {options : Options} {value : Value} {definition : Definition}
  {world : World σ}

theorem nestingBound_sole (heap : Heap) (definition : Definition) (times : Nat) :
    nestingBound heap (definition.sole times) = nestingBound heap definition + times := by
  unfold nestingBound
  rw [definition.depth_sole]
  omega

/-- A check of sole alternatives comes to what the first of them comes to. -/
theorem check_sole_eq_outcome (host : Host σ) (options : Options)
    (hpresent : value.isAbsent = false) (definition : Definition) (times : Nat)
    (world : World σ) :
    check host options value (definition.sole (times + 1)) world =
      Check.outcome (Check.alternatives
        (checkWithin host (nestingBound world.heap definition + times)) value []
        [definition.sole times] ⟨(Context.start options).visited, world⟩) := by
  have hdepth : nestingBound world.heap (definition.sole (times + 1)) =
      nestingBound world.heap definition + times + 1 := nestingBound_sole _ _ _
  rw [check_eq_outcome_node host options value _ world hdepth, Definition.sole,
    Check.node_either _ hpresent]

/-- A check of a present value against a definition without alternatives comes to an outcome. -/
theorem check_total_of_straight (hwritten : definition.Written)
    (hstraight : ∀ part, definition.Part part → part.Straight)
    (hpresent : value.isAbsent = false) (hcollecting : options.assert = false) :
    ∃ outcome after, check host options value definition world = (.ok outcome, after) := by
  have halternation : ∀ part, definition.Part part → part.alternation < maxNesting := by
    intro part hpart
    have hnone : part.alternation = 0 := by
      cases part with
      | node keywords => exact Definition.alternation_node_of_none (hstraight _ hpart)
      | _ => rfl
    rw [hnone]
    decide
  -- A default for the value as a whole is not asked for, so it may as well be allowed.
  have hresolve : Scope.ResolveAlike host host (Definition.Same host fun _ => True)
      options.policy (options.allowing true).policy := Scope.resolveAlike_self rfl
  have hsame : Definition.Same host (fun _ => True) definition definition :=
    ⟨rfl, fun _ _ => trivial⟩
  have hallowed := check_of_resolveAlike hresolve hsame rfl
    (fun habsent => absurd habsent (Bool.eq_false_iff.1 hpresent)) options world
  have hassert : (options.allowing true).assert = false := hcollecting
  obtain ⟨outcome, after, hok⟩ : ∃ outcome after, check host (options.allowing true) value
      definition world = (.ok outcome, after) :=
    check_total hwritten halternation rfl hassert value world
  exact ⟨outcome, after, hallowed.symm.trans hok⟩

theorem fork_start (hcollecting : options.assert = false) :
    (Context.start options).fork [] = Context.start options := by
  simp [Context.fork, Context.start, hcollecting]

variable {outcome : Outcome} {after : World σ} {times : Nat} (hcollecting : options.assert = false)
  (hvalue : world.heap.Holds value) (hpresent : value.isAbsent = false)
  (hwritten : definition.Written)

include hcollecting hvalue hpresent hwritten

/-- Whatever the definition finds, sole alternatives that are too many end with a fault and
leave everything as it was. -/
theorem check_sole_of_le (hmany : maxNesting ≤ times + 1) :
    ∃ after', check host options value (definition.sole (times + 1)) world =
        (.error (.definition (.leftRecursion options.root)), after') ∧
      ∀ ref, ref < world.heap.size → after'.heap.fetch ref = world.heap.fetch ref := by
  have hsound : (Session.mk (Context.start options).visited world).Sound value :=
    (Session.Sound.start options hvalue).visited
  obtain ⟨depth, hdepth⟩ := exists_nestingBound_eq definition world.heap
  have hnesting : maxNesting ≤ (Context.start options).visited.nesting + times := by
    have hone : (Context.start options).visited.nesting = 1 := rfl
    omega
  have hfound := @Check.findings_sole_of_le σ host value definition _ hsound hpresent hwritten
    depth times hnesting
  rw [← hdepth] at hfound
  obtain ⟨last, hlast, hend⟩ := Check.alternatives_of_fault hsound hcollecting
    ((Definition.written_sole hwritten times).throughout host) _ hfound
  refine ⟨last.world, ?_, fun ref hlt => Invariant.fetch_eq_of_untouched hlast hlt⟩
  rw [check_sole_eq_outcome host options hpresent, hend]
  rfl

variable (hleads : definition.Throughout host Definition.Straight)

include hleads

/-- **What the first finds** is what the check of the definition has found. -/
theorem findings_sole_of_check (hroom : (Context.start options).Roomy (times + 2))
    (hok : check host options value definition world = (.ok outcome, after)) :
    Check.findings (checkWithin host (nestingBound world.heap definition + times)) value
        ⟨(Context.start options).visited, world⟩ (definition.sole times) =
      .ok (Violation.raised options.root times outcome.violations) := by
  have hsound : (Session.mk (Context.start options).visited world).Sound value :=
    (Session.Sound.start options hvalue).visited
  have hdefinition : Check.findings (checkWithin host (nestingBound world.heap definition)) value
      ⟨(Context.start options).visited, world⟩ definition = .ok outcome.violations := by
    have htwo : (Session.mk (Context.start options) world).context.Roomy 2 :=
      hroom.mono (Nat.le_add_left 2 times)
    refine (Check.findings_visited htwo hleads _).trans ?_
    unfold check at hok
    rw [Check.findings_eq_outcome, fork_start hcollecting, hok]
    rfl
  rw [Check.findings_sole hsound hpresent hwritten hleads _ times hroom.visited, hdefinition]
  rfl

/-- If nothing is found, sole alternatives leave the value as the definition does. -/
theorem check_sole_of_clean (hroom : (Context.start options).Roomy (times + 1)) {found : Value}
    (hok : check host options value definition world = (.ok ⟨found, []⟩, after)) :
    ∃ result after', check host options value (definition.sole times) world =
        (.ok ⟨result, []⟩, after') ∧
      world.heap.SameSince value after'.heap result after.heap found ∧
      ∀ ref, ref < world.heap.size → ¬ world.heap.Reachable value ref →
        after'.heap.fetch ref = after.heap.fetch ref := by
  obtain ⟨result, last, hrun, hcontext, hsame⟩ := Check.sameSince_sole
    (Session.Sound.start options hvalue) hpresent hwritten hleads hok times hroom
    (fork_start hcollecting) rfl Invariant.holds_untouched_self
  have houter : check host options value (definition.sole times) world =
      (.ok ⟨result, []⟩, last.world) := by
    unfold check
    rw [nestingBound_sole, hrun]
    change (Except.ok (Outcome.mk result last.context.violations), last.world) = _
    rw [hcontext]
    rfl
  refine ⟨result, last.world, houter, hsame, fun ref hlt hout => ?_⟩
  -- What the value does not lead to is out of the reach of both checks.
  have hinner' := Heap.fetch_check host options value definition world
    ((hwritten.throughout host).imp fun _ h => h.unaided) hlt hout
  have houter' := Heap.fetch_check host options value (definition.sole times) world
    (((Definition.written_sole hwritten times).throughout host).imp fun _ h => h.unaided) hlt hout
  rw [hok] at hinner'
  rw [houter] at houter'
  exact houter'.trans hinner'.symm

/-- If something is found, sole alternatives complain of it and leave everything as it was. -/
theorem check_sole_of_violations (hroom : (Context.start options).Roomy (times + 2))
    (hok : check host options value definition world = (.ok outcome, after))
    (hsomething : outcome.violations ≠ []) :
    ∃ after', check host options value (definition.sole (times + 1)) world =
        (.ok ⟨value, Violation.tower options.root outcome.violations (times + 1)⟩, after') ∧
      ∀ ref, ref < world.heap.size → after'.heap.fetch ref = world.heap.fetch ref := by
  have hfound := findings_sole_of_check hcollecting hvalue hpresent hwritten hleads hroom hok
  rw [Violation.raised_of_ne_nil hsomething] at hfound
  obtain ⟨last, hlast, hend⟩ := Check.alternatives_of_violations
    (Session.Sound.start options hvalue).visited hcollecting
    ((Definition.written_sole hwritten times).throughout host) _ hfound
    (Violation.tower_ne_nil hsomething options.root times)
  refine ⟨last, ?_, fun ref hlt => Invariant.fetch_eq_of_untouched hlast hlt⟩
  rw [check_sole_eq_outcome host options hpresent, hend]
  rfl

end Whole

/-- **The limit on left recursion is exact.**  A definition without alternatives is wrapped into
so many nodes, each of which asks for the next alone.

If they are fewer than `maxNesting`, the check against them finds nothing just where the check
against the definition finds nothing, and then comes to the same value and leaves the same heap,
but for the numbers of the containers that are made.  If the definition finds something, they
complain of it in a tower of complaints, and the value and all that was there is as it was.

From `maxNesting` on, the check always ends with the fault of a left recursion at the place of
the whole, and all that was there is as it was. -/
theorem check_sole (host : Host σ) (options : Options) (hcollecting : options.assert = false)
    {json : Json} {definition : Definition} (hread : Definition.ofJson json = .ok definition)
    (hstraight : ∀ part, definition.Part part → part.Straight) {value : Value}
    (hpresent : value ≠ .null) {world : World σ} (hvalue : world.heap.Holds value) {times : Nat}
    (htimes : 1 ≤ times) :
    (times < maxNesting → ∃ outcome after,
      check host options value definition world = (.ok outcome, after) ∧
      (outcome.violations = [] → ∃ result after',
        check host options value (definition.sole times) world = (.ok ⟨result, []⟩, after') ∧
          world.heap.SameSince value after'.heap result after.heap outcome.value ∧
          ∀ ref, ref < world.heap.size → ¬ world.heap.Reachable value ref →
            after'.heap.fetch ref = after.heap.fetch ref) ∧
      (outcome.violations ≠ [] → ∃ after',
        check host options value (definition.sole times) world =
            (.ok ⟨value, Violation.tower options.root outcome.violations times⟩, after') ∧
          ∀ ref, ref < world.heap.size → after'.heap.fetch ref = world.heap.fetch ref)) ∧
    (maxNesting ≤ times → ∃ after',
      check host options value (definition.sole times) world =
          (.error (.definition (.leftRecursion options.root)), after') ∧
        ∀ ref, ref < world.heap.size → after'.heap.fetch ref = world.heap.fetch ref) := by
  obtain ⟨less, rfl⟩ := Nat.exists_eq_add_of_le' htimes
  have hwritten := Definition.written_ofJson json hread
  have hleads : definition.Throughout host Definition.Straight :=
    Definition.throughout_straight hwritten hstraight
  have hthere : value.isAbsent = false :=
    Bool.eq_false_iff.2 fun habsent => hpresent ((Value.isAbsent_iff value).1 habsent)
  constructor
  · intro hfew
    have hroom : (Context.start options).Roomy (less + 2) := .start options hfew
    obtain ⟨outcome, after, hok⟩ : ∃ outcome after,
        check host options value definition world = (.ok outcome, after) :=
      check_total_of_straight hwritten hstraight hthere hcollecting
    refine ⟨outcome, after, hok, fun hnothing => ?_, fun hsomething => ?_⟩
    · obtain ⟨found, violations⟩ := outcome
      obtain rfl : violations = [] := hnothing
      exact check_sole_of_clean hcollecting hvalue hthere hwritten hleads hroom hok
    · exact check_sole_of_violations hcollecting hvalue hthere hwritten hleads hroom hok hsomething
  · exact check_sole_of_le hcollecting hvalue hthere hwritten

/-- An array that holds itself, which is no number: 63 nodes around the definition complain of
that, each of what the next has found, and 64 are too many. -/
theorem check_sole_cyclic :
    let definition : Definition := .shorthand .number
    let world : World Unit := ⟨{ containers := #[.array [.array 0]] }, ()⟩
    let violation : Violation := .ofComplaint "value" (.wrongType .number) []
    (∃ after, check default {} (.array 0) (definition.sole 63) world =
        (.ok ⟨.array 0, Violation.tower "value" [violation] 63⟩, after) ∧
      after.heap.fetch 0 = .array [.array 0]) ∧
    ∃ after, check default {} (.array 0) (definition.sole 64) world =
        (.error (.definition (.leftRecursion "value")), after) ∧
      after.heap.fetch 0 = .array [.array 0] := by
  intro definition world violation
  have hread : Definition.ofJson (.string "number") = .ok definition := by
    simp only [Definition.ofJson]
    rfl
  have hstraight : ∀ part, (Definition.shorthand .number).Part part → part.Straight := by
    rintro part ⟨⟩
    trivial
  have hpresent : Value.array 0 ≠ .null := nofun
  have hvalue : world.heap.Holds (.array 0) := by
    intro ref hreach
    -- The array leads to itself and to nothing else.
    have hzero : ref = 0 := by
      induction hreach with
      | root hroot => cases hroot; rfl
      | child _ hchild ih =>
        subst ih
        obtain ⟨part, hpart, href⟩ := hchild
        obtain rfl : part = .array 0 := List.mem_singleton.1 hpart
        cases href
        rfl
    subst hzero
    exact (by decide : (0 : Nat) < 1)
  have hinner : (check default {} (.array 0) definition world).1 =
      .ok ⟨.array 0, [violation]⟩ := by
    decide +kernel
  obtain ⟨outcome, _, hok, -, hfails⟩ := (check_sole default {} rfl hread hstraight hpresent
    hvalue (by decide : 1 ≤ 63)).1 (by decide)
  rw [hok] at hinner
  cases hinner
  obtain ⟨after, houter, hsame⟩ := hfails (List.cons_ne_nil _ _)
  obtain ⟨after', hmany, hsame'⟩ := (check_sole default {} rfl hread hstraight hpresent
    hvalue (by decide : 1 ≤ 64)).2 (by decide)
  exact ⟨⟨after, houter, hsame 0 (by decide)⟩, after', hmany, hsame' 0 (by decide)⟩

end Conform
