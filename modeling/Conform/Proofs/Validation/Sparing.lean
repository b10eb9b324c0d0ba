import Conform.Proofs.Validation.Discipline

/-!
# Documents that are filled in

Where a value is absent, the document of a literal default may stand in for it, and the
containers of the document are made there and then.  To say which documents a check fills in,
the check is put beside one that stops with a refusal where it would fill in a document that is
to be spared: a document is filled in if the check would come to something else were it to stop
there.

## Main definitions

* `Filling`, `Filling.Creates`: a document filled in somewhere, and the containers that it makes.
* `checkSparing`: the check that stops where it would fill in a document to be spared.
* `Filling.MadeBy`: the fillings of a check.

## Main results

* `checkSparing_nothing`: where nothing is spared, the check is the check.
-/

namespace Conform

variable {σ : Type}

/-- A document that stands in for an absent value, and the session in which it does. -/
structure Filling (σ : Type) where
  json : Json
  session : Session σ

/-- The containers that are made for the document take the next places of the heap. -/
def Filling.Creates (filling : Filling σ) (ref : Ref) : Prop :=
  filling.session.world.heap.size ≤ ref ∧
    ref < (Value.ofJson filling.json filling.session.world.heap).2.size

/-- In a context, the default of a definition lets a document stand in for the value. -/
structure Resolved.Fills (resolved : Resolved) (context : Context) (value : Value) (json : Json) :
    Prop where
  absent : value = .null
  fallback : resolved.node.fallback = some (.literal json)
  allowed : (context.atRoot && !context.options.policy.allowRootDefault) = false

namespace Check

variable (host : Host σ) (spared : Filling σ → Prop) (refusal : ValidationError)

/-- Lets the default stand in for an absent value, but stops with a refusal if it is a document
to be spared. -/
noncomputable def supplySparing (resolved : Resolved) (value : Value) : Check σ Value :=
  guarding (fun session => ∀ json, resolved.Fills session.context value json →
    ¬ spared ⟨json, session⟩) refusal (supply host resolved value)

theorem supplySparing_nothing (resolved : Resolved) (value : Value) :
    supplySparing host (fun _ => False) refusal resolved value = supply host resolved value :=
  funext fun _ => guarding_of_permitted fun _ _ => id

/-- A document that is filled in makes its containers, and nothing else. -/
theorem supply_of_fills {resolved : Resolved} {value : Value} {json : Json} {session : Session σ}
    (h : resolved.Fills session.context value json) :
    supply host resolved value session =
      .ok (Value.ofJson json session.world.heap).1
        ⟨session.context, ⟨(Value.ofJson json session.world.heap).2, session.world.env⟩⟩ := by
  obtain ⟨rfl, hfallback, hallowed⟩ := h
  simp only [supply, hfallback, bind, EStateM.bind, readContext, hallowed]
  rfl

/-- Checks a value against a definition that has been taken up, but stops with a refusal if a
document to be spared would stand in for the value. -/
noncomputable def nodeSparing (recurse : Recurse σ) (value : Value) (definition : Definition) :
    Check σ Value := do
  let policy ← readContext fun context => context.options.policy
  let resolved ← ofForcing (resolve host policy definition)
  let value ← supplySparing host spared refusal resolved value
  demands host recurse resolved value

end Check

/-- The check of a value within a bound, which stops with a refusal where it would fill in a
document to be spared. -/
noncomputable def checkSparing (host : Host σ) (spared : Filling σ → Prop)
    (refusal : ValidationError) : Nat → Value → Definition → Check σ Value
  | 0, _, _ => throw .exhausted
  | depth + 1, value, definition =>
    Check.visiting
      (Check.nodeSparing host spared refusal (checkSparing host spared refusal depth) value
        definition)

/-- A check makes a filling if it would come to something else were it to stop there. -/
def Filling.MadeBy (filling : Filling σ) (host : Host σ) (options : Options) (value : Value)
    (definition : Definition) (world : World σ) : Prop :=
  ∃ refusal,
    checkSparing host (· = filling) refusal (nestingBound world.heap definition) value definition
        ⟨.start options, world⟩ ≠
      checkWithin host (nestingBound world.heap definition) value definition
        ⟨.start options, world⟩

/-- **Where nothing is spared, the check is the check.** -/
theorem checkSparing_nothing (host : Host σ) (refusal : ValidationError) (depth : Nat)
    (value : Value) (definition : Definition) :
    checkSparing host (fun _ => False) refusal depth value definition =
      checkWithin host depth value definition := by
  induction depth generalizing value definition with
  | zero => rfl
  | succ depth ih =>
    have hrest : checkSparing host (fun _ => False) refusal depth = checkWithin host depth :=
      funext fun value => funext (ih value)
    simp only [checkSparing, Check.nodeSparing, Check.supplySparing_nothing, hrest]
    rfl

end Conform
