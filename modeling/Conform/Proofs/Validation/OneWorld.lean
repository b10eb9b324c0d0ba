import Conform.Proofs.Definition.Conforms
import Conform.Proofs.Validation.Assertion

/-!
# Checks in one world

Two checks may begin in the same world and differ in their contexts alone.  As long as the
contexts do not differ in anything that is asked for, the checks do the same to the world and
come to the same.

A check asks how many definitions are under way at the present place, but only to see whether
there is room for one more.  Alternatives are the only definitions that are taken up where others
are under way.  So for a definition that leads to none it makes no difference how many these
are, if there is room for the definition itself.

## Main definitions

* `Scope.inOneWorld`: the comparison of checks in one world.
* `Definition.Straight`: definitions that ask for no alternatives.
* `Context.crowded`: the same place with other definitions under way.

## Main results

* `Scope.outcome_eq_of_follows`: checks that go alike come to the same.
* `Definition.throughout_straight`: a written definition in which no alternatives are asked for
  leads to none.
* `Check.outcome_crowded`: it comes to the same, however many definitions are under way.
-/

namespace Conform

variable {σ : Type}

/-! ## The comparison -/

namespace Scope

open Check

variable {left right : Context} {hpath : left.pathText = right.pathText}
  {hasserting : left.asserting = true → right.asserting = true}

/-- The comparison of checks that stand in one world and in two contexts. -/
def inOneWorld (σ : Type) (left right : Context) (hpath : left.pathText = right.pathText)
    (hasserting : left.asserting = true → right.asserting = true) : Scope σ Still :=
  (anything.scope σ True left).within left right hpath hasserting

theorem inOneWorld_value_iff {v w : Value} :
    (inOneWorld σ left right hpath hasserting).value .still v w ↔ v = w :=
  Invariant.alike_iff.trans (and_iff_left fun _ _ => trivial)

/-- Whatever changes the world comes to the same on both sides. -/
theorem inOneWorld_runs {α β : Type} {m₁ : Run σ α} {m₂ : Run σ β} {P : Still → α → β → Prop}
    (h : ∀ world, (m₁ world).2 = (m₂ world).2 ∧ P .still (m₁ world).1 (m₂ world).1) :
    (inOneWorld σ left right hpath hasserting).Runs .still m₁ m₂ P := by
  rintro ⟨⟩ - world _ ⟨rfl, -⟩
  exact ⟨.still, le_refl _, ⟨(h world).1, trivial⟩, (h world).2⟩

/-- The keywords of a node correspond to themselves. -/
theorem inOneWorld_matches_self {host : Host σ} {good : Definition → Prop} {resolved : Resolved}
    (h : Definition.Throughout host good (.node resolved.node)) :
    (inOneWorld σ left right hpath hasserting).Matches host host (Definition.Same host good) .still
      resolved resolved := by
  have hself : (anything.scope σ True left).Matches host host (Definition.Same host good) .still
      resolved resolved := Invariant.matches_self (fun d _ => keeps_anything host d) h
  exact hself.within

/-- What resolves to a node that is good throughout resolves alike on both sides. -/
theorem inOneWorld_resolve {host : Host σ} {good : Definition → Prop} {policy : Policy}
    {d : Definition} (hd : d.Throughout host good) :
    (inOneWorld σ left right hpath hasserting).Runs .still (Run.ofForcing (resolve host policy d))
      (Run.ofForcing (resolve host policy d)) fun j =>
        AlikeResult fun a b => (inOneWorld σ left right hpath hasserting).Matches host host
          (Definition.Same host good) j a b ∧ a = b ∧
            Definition.Throughout host good (.node a.node) := by
  have hforces : (anything.scope σ True left).Forces .still (resolve host policy d) :=
    Invariant.forces _
  rintro ⟨⟩ - w₁ w₂ hworld
  refine hforces.runs (fun j _ env resolved env' hresolve => ?_) .still (le_refl _) w₁ w₂ hworld
  have hresolved := hd.of_met (Definition.met_resolve hresolve).1
  exact ⟨inOneWorld_matches_self hresolved, rfl, hresolved⟩

/-- **Checks that go alike come to the same**, if both stop at the first violation or neither. -/
theorem outcome_eq_of_follows {m₁ m₂ : Check σ Value} {world : World σ}
    (hboth : right.asserting = true → left.asserting = true)
    (hviolations : right.violations = left.violations)
    (h : (inOneWorld σ left right hpath hasserting).Follows .still m₁ m₂
      (inOneWorld σ left right hpath hasserting).value) :
    outcome (m₂ ⟨right, world⟩) = outcome (m₁ ⟨left, world⟩) := by
  have hends := h .still (le_refl _) left.violations right.violations world world ⟨rfl, trivial⟩
  change Ends _ _ _ _ _ (m₁ ⟨left, world⟩) (m₂ ⟨right, world⟩) at hends
  revert hends
  generalize m₁ ⟨left, world⟩ = r
  generalize m₂ ⟨right, world⟩ = s
  intro hends
  cases hends with
  | @ok a b added _ _ _ _ hworld _ hvalue =>
    obtain rfl := inOneWorld_value_iff.1 hvalue
    obtain ⟨rfl, -⟩ := hworld
    change (Except.ok (Outcome.mk a (right.violations ++ added)), _) =
      (Except.ok (Outcome.mk a (left.violations ++ added)), _)
    rw [hviolations]
  | error _ hworld _ _ => exact congrArg (Prod.mk _) hworld.1.symm
  | stopped hleft hright _ =>
    -- The second would have stopped where the first goes on.
    have hleft : left.asserting = false := hleft
    rw [hboth hright] at hleft
    cases hleft

end Scope

/-! ## Definitions that lead to no alternatives -/

namespace Definition

/-- A definition that asks for no alternatives. -/
def Straight : Definition → Prop
  | .node keywords => keywords.either = none
  | _ => True

/-- **A written definition in which no alternatives are asked for leads to none.** -/
theorem throughout_straight {host : Host σ} {definition : Definition}
    (hwritten : definition.Written) (h : ∀ part, definition.Part part → part.Straight) :
    definition.Throughout host Straight := by
  have hparts : ∀ met, Met host definition met → ∀ part, met.Part part → part.Straight := by
    intro met hmet
    induction hmet with
    | refl => exact h
    | shorthand _ _ => exact forall_part_node.2 ⟨rfl, nofun, nofun, nofun⟩
    | forced hmet _ _ => cases hwritten.of_met hmet
    | @field node fields _ _ _ _ hmet hschema hresolve hfield ih =>
      cases fields with
      | declared declared =>
        cases hresolve
        exact (forall_part_node.1 ih).2.1 _ hschema _ hfield
      | deferred code =>
        exact absurd hschema ((written_node_iff.1 (hwritten.of_met hmet)).deferred code)
    | item _ hitems ih => exact (forall_part_node.1 ih).2.2.1 _ hitems
    | alternative _ heither hmem ih => exact (forall_part_node.1 ih).2.2.2 _ heither _ hmem
  exact fun met hmet => hparts met hmet met .refl

end Definition

/-! ## Other definitions under way -/

/-- The same place in a check, with other definitions under way. -/
def Context.crowded (context : Context) (visits : List Nat) : Context := { context with visits }

namespace Check

variable {host : Host σ} {context : Context} {visits : List Nat}

/-- Where there is room for a definition that leads to no alternatives, its check goes alike. -/
theorem follows_crowded (depth : Nat) (hleft : context.Roomy 1)
    (hright : (context.crowded visits).Roomy 1) {value : Value} {definition : Definition}
    (hdefinition : definition.Throughout host Definition.Straight) :
    (Scope.inOneWorld σ context (context.crowded visits) rfl id).Follows .still
      (checkWithin host depth value definition) (checkWithin host depth value definition)
      (Scope.inOneWorld σ context (context.crowded visits) rfl id).value := by
  -- One step on there is all the room again, and so the induction is for all such contexts.
  induction depth generalizing context visits value definition with
  | zero => exact .throw fun _ => trivial
  | succ depth ih =>
    have hguard : maxNesting ≤ context.nesting ↔ maxNesting ≤ (context.crowded visits).nesting :=
      iff_of_false (Nat.not_le.2 hleft.nesting_lt) (Nat.not_le.2 hright.nesting_lt)
    refine .visiting hguard (.node _ (checkWithin_restores host _) _) fun _ => ?_
    have henters : (Scope.inOneWorld σ context.visited
        (context.visited.crowded (context.path.length :: visits)) rfl id).Enters
          (Definition.Same host Definition.Straight) (checkWithin host depth)
          (checkWithin host depth) .still := by
      constructor
      case restores => exact checkWithin_restores host _
      case guard =>
        rintro j - r _ ⟨rfl, -⟩
        exact Iff.rfl
      case below =>
        rintro ⟨⟩ - r _ ⟨rfl, -⟩ - accessor ⟨⟩ - w _ hvw d _ ⟨rfl, hd⟩
        obtain rfl := Scope.inOneWorld_value_iff.1 hvw
        have hone : 1 ≤ maxNesting := by decide
        exact ih (hleft.visited.entered r accessor hone) (hright.visited.entered r accessor hone) hd
    refine Scope.Follows.node_of_serves henters ?_ (fun _ => rfl) (Scope.inOneWorld_value_iff.2 rfl)
    rintro ⟨⟩ - w₁ w₂ hworld
    obtain ⟨k, hjk, hworld', hresult⟩ := Scope.inOneWorld_resolve hdefinition .still (le_refl _)
      w₁ w₂ hworld
    refine ⟨k, hjk, hworld', .imp (fun a b ⟨hmatches, hsame, hnode⟩ => ⟨hmatches, ?_⟩) hresult⟩
    subst hsame
    rintro ⟨⟩ - v w hvw -
    -- The node has no alternatives, and so nothing else is taken up at this place.
    have hnone : a.node.either = none := hnode.self
    simp only [either, hnone]
    exact .pure fun _ _ => hvw

/-- **However many definitions are under way**, the check of a definition that leads to no
alternatives comes to the same, if there is room for it. -/
theorem outcome_crowded (depth : Nat) (hleft : context.Roomy 1)
    (hright : (context.crowded visits).Roomy 1) {definition : Definition}
    (hdefinition : definition.Throughout host Definition.Straight) (value : Value)
    (world : World σ) :
    outcome (checkWithin host depth value definition ⟨context.crowded visits, world⟩) =
      outcome (checkWithin host depth value definition ⟨context, world⟩) :=
  Scope.outcome_eq_of_follows id rfl (follows_crowded depth hleft hright hdefinition)

end Check

end Conform
