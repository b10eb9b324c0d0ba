import Mathlib.Control.Monad.Basic
import Conform.Proofs.Validation.Abreast
import Conform.Proofs.Validation.Regime

/-!
# Stopping at the first violation

A check may collect all violations, or it may stop at the first one and report that.  The
two go in step up to the first violation that is not met on the side, whatever thunks,
defaults and transforms do with the heap and with the state of the host: they find the two
in the same world.  So if nothing is found, both come to the same, and if something is,
the check that stops reports what the other records first.

The check that goes on may come to the fault of a definition later, which the other never
gets to see.

## Main definitions

* `ValidationError.IsFault`: the errors of a check that does not stop at a violation.
* `Check.Foretold`: what the check that collects says of the check that stops.
* `recorded`: the violations that a check has recorded when it ends.

## Main results

* `Check.isFault_of_collecting`: a check that collects ends with no other error.
* `Check.foretold_checkWithin`: the check that stops ends as the other foretells.
* `check_asserting`: the same of whole checks.
-/

namespace Conform

variable {σ : Type}

/-! ## Errors of a check that collects -/

namespace Check

/-- **A check that collects violations ends with no error but a fault.** -/
theorem isFault_of_collecting {host : Host σ} {depth : Nat} {value : Value}
    {definition : Definition} {context : Context} (hcollecting : context.asserting = false)
    {world : World σ} {fault : ValidationError} {after : Session σ}
    (h : checkWithin host depth value definition ⟨context, world⟩ = .error fault after) :
    fault.IsFault := by
  let R : Regime := .free ValidationError.IsFault
  have hadmits : R.Admits context := by
    intro hasserting
    rw [hcollecting] at hasserting
    cases hasserting
  have hends := R.ensures_checkWithin (fun _ h => h) host (fun _ => True)
    (fun d _ => Regime.permits_free _ host d) depth context value definition hadmits trivial
    (fun _ _ => trivial) context.violations world trivial
  rw [Context.holding_self, h] at hends
  cases hends with
  | error _ hfault => exact hfault

/-! ## In step up to the first violation -/

/-- What the end of a check that collects says of the end of the check that stops at the
first violation, where both begin without any. -/
inductive Foretold : EStateM.Result ValidationError (Session σ) Value →
    EStateM.Result ValidationError (Session σ) Value → Prop where
  /-- Without violations both come to the same value in the same world. -/
  | clean {value : Value} {left right : Session σ} : left.context.violations = [] →
      right.context.violations = [] → left.world = right.world →
      Foretold (.ok value left) (.ok value right)
  /-- A fault before any violation is the fault of both. -/
  | faulty {fault : ValidationError} {left right : Session σ} : fault.IsFault →
      left.context.violations = [] → Foretold (.error fault left) (.error fault right)
  /-- The first violation of the one is what the other reports, however the one goes on. -/
  | stopped {r : EStateM.Result ValidationError (Session σ) Value} {violation : Violation}
      {rest : List Violation} {session : Session σ} :
      (final r).context.violations = violation :: rest →
      (∀ fault after, r = .error fault after → fault.IsFault) →
      Foretold r (.error (.assertion violation) session)

/-- Nothing is asked of the heap, and all containers are owned. -/
def anything : Invariant Still where
  holds := fun _ _ => True
  own := fun _ _ => True
  own_mono := fun _ => id
  closed := fun _ _ _ => trivial
  store := fun _ _ _ => trivial

theorem keeps_anything (host : Host σ) (definition : Definition) :
    anything.Keeps host definition := by
  cases definition with
  | node keywords =>
    exact ⟨fun _ _ _ j _ _ _ => ⟨j, le_refl j, trivial, fun _ _ => trivial⟩,
      fun _ _ _ _ _ j _ _ _ => ⟨j, le_refl j, trivial, fun _ _ _ _ => trivial⟩⟩
  | _ => trivial

/-- Two beginnings of a check that differ in whether it stops at the first violation. -/
theorem abreast_start (own : Ref → Prop) (options : Options) :
    Context.Abreast own (.start { options with assert := false })
      (.start { options with assert := true }) where
  policy := rfl
  pathText := rfl
  refused := rfl
  asserting := nofun
  origins := rfl
  visits := ⟨0, [], rfl, rfl, nofun⟩
  ancestors := ⟨[], rfl, fun _ _ => List.not_mem_nil⟩

/-- **The check that stops ends as the check that collects foretells.** -/
theorem foretold_checkWithin (host : Host σ) (options : Options) (depth : Nat) (value : Value)
    (definition : Definition) (world : World σ) :
    Foretold
      (checkWithin host depth value definition
        ⟨.start { options with assert := false }, world⟩)
      (checkWithin host depth value definition
        ⟨.start { options with assert := true }, world⟩) := by
  have habreast := abreast_start (anything.own .still) options
  have hvalue : anything.Owns .still value := fun _ _ => trivial
  have hdefinition : definition.Throughout host fun _ => True := fun _ _ => trivial
  have hends := Invariant.follows_abreast _ (fun d _ => keeps_anything host d)
    (fun _ _ _ _ => ⟨trivial, fun _ _ => trivial⟩) depth habreast hvalue hdefinition
    .still (le_refl _) [] [] world world ⟨rfl, trivial⟩
  have hfault : ∀ fault after, checkWithin host depth value definition
      ⟨.start { options with assert := false }, world⟩ = .error fault after → fault.IsFault :=
    fun _ _ => isFault_of_collecting rfl
  revert hends hfault
  change (anything.abreast σ habreast).Ends .still (anything.abreast σ habreast).value [] []
    (checkWithin host depth value definition ⟨.start { options with assert := false }, world⟩)
    (checkWithin host depth value definition ⟨.start { options with assert := true }, world⟩) → _
  generalize checkWithin host depth value definition _ = r
  generalize checkWithin host depth value definition _ = s
  intro hends hfault
  cases hends with
  | ok _ hworld hadded hvalue =>
    obtain ⟨rfl, -⟩ := Invariant.alike_iff.1 hvalue
    obtain rfl := hadded rfl
    exact .clean rfl rfl hworld.1
  | error _ _ hadded _ =>
    obtain rfl := hadded rfl
    exact .faulty (hfault _ _ rfl) rfl
  | stopped _ _ hfinal => exact .stopped (congrArg (·.context.violations) hfinal) hfault

end Check

/-- The violations that have been recorded when a part of a check ends. -/
def Check.violations {α : Type} (r : EStateM.Result ValidationError (Session σ) α) :
    List Violation :=
  (Check.final r).context.violations

/-- The violations that a check has recorded when it ends, with a value or with an error. -/
def recorded (host : Host σ) (options : Options) (value : Value) (definition : Definition)
    (world : World σ) : List Violation :=
  Check.violations (checkWithin host (nestingBound world.heap definition) value definition
    ⟨.start options, world⟩)

/-- **A check that stops at the first violation** against one that collects them, from the
same world.  If the one that collects finds none, both come to the same value and leave the
same heap; if it finds some, the other reports the first.  Where the one comes to the fault
of a definition, so does the other, or it has stopped before.  And whenever the one stops,
what it reports is the first that the other records, which goes on to a value or to a
fault. -/
theorem check_asserting (host : Host σ) (options : Options) (value : Value)
    (definition : Definition) (world : World σ) :
    let collecting := check host { options with assert := false } value definition world
    let asserting := check host { options with assert := true } value definition world
    (∀ outcome, collecting.1 = .ok outcome → outcome.violations = [] →
      asserting.1 = .ok outcome ∧ asserting.2 = collecting.2) ∧
    (∀ outcome violation rest, collecting.1 = .ok outcome →
      outcome.violations = violation :: rest → asserting.1 = .error (.assertion violation)) ∧
    (∀ fault, collecting.1 = .error (.definition fault) →
      asserting.1 = .error (.definition fault) ∨
        ∃ violation, asserting.1 = .error (.assertion violation)) ∧
    ∀ violation, asserting.1 = .error (.assertion violation) →
      (recorded host { options with assert := false } value definition world).head? =
          some violation ∧
      ((∃ outcome, collecting.1 = .ok outcome ∧ outcome.violations.head? = some violation) ∨
        ∃ fault, collecting.1 = .error fault ∧ fault.IsFault) := by
  intro collecting asserting
  have hforetold := Check.foretold_checkWithin host options (nestingBound world.heap definition)
    value definition world
  have hcollecting : collecting = Check.outcome (checkWithin host
    (nestingBound world.heap definition) value definition
    ⟨.start { options with assert := false }, world⟩) := rfl
  have hasserting : asserting = Check.outcome (checkWithin host
    (nestingBound world.heap definition) value definition
    ⟨.start { options with assert := true }, world⟩) := rfl
  rw [hcollecting, hasserting, recorded]
  revert hforetold
  generalize checkWithin host (nestingBound world.heap definition) value definition
    ⟨.start { options with assert := false }, world⟩ = r
  generalize checkWithin host (nestingBound world.heap definition) value definition
    ⟨.start { options with assert := true }, world⟩ = s
  intro hforetold
  cases hforetold with
  | @clean value left right hleft hright hworld =>
    refine ⟨?_, ?_, nofun, nofun⟩
    · rintro _ ⟨⟩ -
      refine ⟨?_, hworld.symm⟩
      change Except.ok (Outcome.mk value right.context.violations) = _
      rw [hright, ← hleft]
    · rintro _ violation rest ⟨⟩ hsome
      rw [show left.context.violations = violation :: rest from hsome] at hleft
      cases hleft
  | @faulty fault left right hfault hnone =>
    refine ⟨nofun, nofun, ?_, ?_⟩
    · rintro _ ⟨⟩
      exact .inl rfl
    · rintro violation ⟨⟩
      cases hfault
  | @stopped _ violation rest session hfirst hfault =>
    have hhead : (Check.violations r).head? = some violation := by
      rw [Check.violations, hfirst, List.head?_cons]
    cases r with
    | ok a left =>
      rw [Check.violations, Check.final_ok] at hhead ⊢
      refine ⟨?_, ?_, nofun, ?_⟩
      · rintro _ ⟨⟩ hnone
        rw [show left.context.violations = [] from hnone] at hhead
        cases hhead
      · rintro _ violation' rest' ⟨⟩ hsome
        rw [show left.context.violations = violation' :: rest' from hsome] at hhead
        exact congrArg (fun v => Except.error (ValidationError.assertion v))
          (Option.some.inj hhead).symm
      · rintro _ ⟨⟩
        exact ⟨hhead, .inl ⟨_, rfl, hhead⟩⟩
    | error fault left =>
      refine ⟨nofun, nofun, fun _ _ => .inr ⟨violation, rfl⟩, ?_⟩
      rintro _ ⟨⟩
      exact ⟨hhead, .inr ⟨fault, rfl, hfault fault left rfl⟩⟩

/-- An alternative that fails on the side stops neither check; the one that stops does so at
the item that meets no alternative, before the thunk that yields itself. -/
theorem check_asserting_either :
    let endless : Definition := .deferred (.host 0)
    let definition : Definition :=
      .node
        { schema := some <| .declared
            [("a", .node { either := some [.shorthand .string, .shorthand .boolean] }),
              ("b", .shorthand .string), ("c", endless)] }
    let host : Host Unit := { (default : Host Unit) with force := fun _ => pure endless }
    let fields : OrderedMap Value := .ofList [("a", .bool true), ("b", .bool true)]
    let world : World Unit := ⟨{ containers := #[.object fields] }, ()⟩
    let violation : Violation := .ofComplaint "value.b" (.wrongType .string) []
    (check host { assert := false } (.object 0) definition world).1 =
        .error (.definition (.thunkChainTooDeep 64)) ∧
      (check host { assert := true } (.object 0) definition world).1 =
        .error (.assertion violation) ∧
      (recorded host { assert := false } (.object 0) definition world).head? = some violation := by
  intro endless definition host fields world violation
  have hstops : (check host { assert := true } (.object 0) definition world).1 =
      .error (.assertion violation) := by
    decide +kernel
  have hfirst := (check_asserting host {} (.object 0) definition world).2.2.2 violation hstops
  refine ⟨?_, hstops, hfirst.1⟩
  decide +kernel

end Conform
