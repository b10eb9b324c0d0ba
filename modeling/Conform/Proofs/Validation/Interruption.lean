import Conform.Proofs.Definition.Recast
import Conform.Proofs.Validation.Discipline

/-!
# Checks that are interrupted

Some faults are final: wherever one turns up, also while an alternative is tried on the side,
the whole check ends with it.  So two checks that take their steps alike, but for steps in
which the first comes to a final fault, come to the same unless the first ends with it.

Two faults are such that this tells something.  A check that has depth to spare comes to what
it comes to with any greater depth.  And where a definition is taken up that has too many
thunks in a row, the check ends with that fault.

## Main definitions

* `Check.SameUnless`: checks that are the same unless the first ends with a final fault.
* `checkAvoiding`: the check that stops where it takes up a definition to be avoided.
* `TakesUp`: the check takes up such a definition.

## Main results

* `Check.SameUnless.node`: nodes are the same if the checks of what they lead to are.
* `checkWithin_sameUnless`: more depth changes nothing unless the depth is used up.
* `fault_of_takesUp`: a check that takes up what ends with a fault ends with it.
-/

namespace Conform

variable {σ : Type}

namespace Check

/-- The first check ends with a final fault, or else the second comes to the same. -/
def SameUnless {α : Type} (fatal : ValidationError → Prop) (m₁ m₂ : Check σ α) : Prop :=
  ∀ session, (∃ fault after, fatal fault ∧ m₁ session = .error fault after) ∨
    m₁ session = m₂ session

namespace SameUnless

variable {α β : Type} {fatal : ValidationError → Prop} {host : Host σ} {R₁ R₂ : Recurse σ}

/-! ## Steps -/

theorem refl (m : Check σ α) : SameUnless fatal m m := fun _ => .inr rfl

theorem bind {m₁ m₂ : Check σ α} {f₁ f₂ : α → Check σ β} (hm : SameUnless fatal m₁ m₂)
    (hf : ∀ a, SameUnless fatal (f₁ a) (f₂ a)) :
    SameUnless fatal (m₁ >>= f₁) (m₂ >>= f₂) := by
  intro session
  simp only [Bind.bind, EStateM.bind]
  obtain ⟨fault, after, hfatal, hfirst⟩ | hsame := hm session
  · exact .inl ⟨fault, after, hfatal, by rw [hfirst]⟩
  · rw [← hsame]
    cases m₁ session with
    | ok a next => exact hf a next
    | error fault after => exact .inr rfl

/-- What comes after the same first step. -/
theorem after (m : Check σ α) {f₁ f₂ : α → Check σ β} (hf : ∀ a, SameUnless fatal (f₁ a) (f₂ a)) :
    SameUnless fatal (m >>= f₁) (m >>= f₂) :=
  bind (refl m) hf

/-- What comes before the same last step. -/
theorem before {m₁ m₂ : Check σ α} (hm : SameUnless fatal m₁ m₂) (f : α → Check σ β) :
    SameUnless fatal (m₁ >>= f) (m₂ >>= f) :=
  bind hm fun a => refl (f a)

theorem ite {c : Prop} [Decidable c] {m₁ m₁' m₂ m₂' : Check σ α}
    (h : SameUnless fatal m₁ m₂) (h' : SameUnless fatal m₁' m₂') :
    SameUnless fatal (if c then m₁ else m₁') (if c then m₂ else m₂') := by
  by_cases hc : c
  · rw [if_pos hc, if_pos hc]
    exact h
  · rw [if_neg hc, if_neg hc]
    exact h'

theorem forM {f₁ f₂ : α → Check σ PUnit} (h : ∀ a, SameUnless fatal (f₁ a) (f₂ a))
    (xs : List α) : SameUnless fatal (xs.forM f₁) (xs.forM f₂) := by
  induction xs with
  | nil => exact refl _
  | cons x xs ih => exact bind (h x) fun _ => ih

theorem bracket {enter leave : Context → Context} {m₁ m₂ : Check σ α}
    (h : SameUnless fatal m₁ m₂) :
    SameUnless fatal (bracket enter leave m₁) (bracket enter leave m₂) := by
  intro session
  simp only [Check.bracket]
  obtain ⟨fault, after, hfatal, hfirst⟩ | hsame :=
    h { session with context := enter session.context }
  · exact .inl ⟨fault, _, hfatal, by rw [hfirst]⟩
  · rw [hsame]
    exact .inr rfl

theorem trial {copies : List (Ref × Ref)} {m₁ m₂ : Check σ α} (h : SameUnless fatal m₁ m₂) :
    SameUnless fatal (trial copies m₁) (trial copies m₂) := by
  intro session
  simp only [Check.trial]
  obtain ⟨fault, after, hfatal, hfirst⟩ | hsame :=
    h { session with context := session.context.fork copies }
  · exact .inl ⟨fault, _, hfatal, by rw [hfirst]⟩
  · rw [hsame]
    exact .inr rfl

theorem under (accessor : Accessor) {m₁ m₂ : Check σ α} (h : SameUnless fatal m₁ m₂) :
    SameUnless fatal (under accessor m₁) (under accessor m₂) :=
  h.bracket

theorem inside (ref : Ref) {m₁ m₂ : Check σ Unit} (h : SameUnless fatal m₁ m₂) :
    SameUnless fatal (inside ref m₁) (inside ref m₂) :=
  after _ fun _ => after _ fun _ => ite (refl _) h.bracket

theorem visiting {m₁ m₂ : Check σ α} (h : SameUnless fatal m₁ m₂) :
    SameUnless fatal (visiting m₁) (visiting m₂) :=
  after _ fun _ => ite (refl _) h.bracket

/-! ## Keywords -/

section Keywords

variable (hrecurse : ∀ value definition,
  SameUnless fatal (R₁ value definition) (R₂ value definition))
include hrecurse

theorem alternatives (value : Value) (failures : List (List Violation))
    (definitions : List Definition) :
    SameUnless fatal (alternatives R₁ value failures definitions)
      (alternatives R₂ value failures definitions) := by
  induction definitions generalizing failures with
  | nil => exact refl _
  | cons first rest ih =>
    refine bind (after _ fun copied => (hrecurse _ _).trial) fun violations => ?_
    exact ite (hrecurse _ _) (ih _)

theorem either (resolved : Resolved) (value : Value) :
    SameUnless fatal (either R₁ resolved value) (either R₂ resolved value) := by
  unfold Check.either
  cases resolved.node.either with
  | none => exact refl _
  | some definitions => exact alternatives hrecurse value [] definitions

theorem schema (resolved : Resolved) (value : Value) :
    SameUnless fatal (schema host R₁ resolved value) (schema host R₂ resolved value) := by
  unfold Check.schema
  cases resolved.node.schema with
  | none => exact refl _
  | some fields =>
    cases value with
    | object ref =>
      refine before (after _ fun declared => inside ref (before (forM (fun entry => ?_) _) _)) _
      exact after _ fun current => before (under _ (hrecurse _ _)) _
    | _ => exact refl _

theorem items (resolved : Resolved) (value : Value) :
    SameUnless fatal (items R₁ resolved value) (items R₂ resolved value) := by
  unfold Check.items
  cases resolved.node.items with
  | none => exact refl _
  | some definition =>
    cases value with
    | array ref =>
      exact before (inside ref (after _ fun _ =>
        forM (fun _ => before (under _ (hrecurse _ _)) _) _)) _
    | object ref =>
      exact before (inside ref (after _ fun _ =>
        forM (fun _ => before (under _ (hrecurse _ _)) _) _)) _
    | _ => exact refl _

theorem demands (resolved : Resolved) (value : Value) :
    SameUnless fatal (demands host R₁ resolved value) (demands host R₂ resolved value) := by
  unfold Check.demands
  refine ite (refl _) ?_
  simp only [keywords, List.foldlM_cons, List.foldlM_nil]
  exact after _ fun _ => after _ fun _ => after _ fun _ =>
    bind (either hrecurse resolved _) fun _ => bind (schema hrecurse resolved _) fun _ =>
      after _ fun _ => after _ fun _ => before (items hrecurse resolved _) _

/-- **Nodes are the same if the checks of what they lead to are.** -/
theorem node (value : Value) (definition : Definition) :
    SameUnless fatal (node host R₁ value definition) (node host R₂ value definition) :=
  after _ fun _ => after _ fun _ => after _ fun _ => demands hrecurse _ _

end Keywords

end SameUnless

end Check

/-! ## Depth to spare -/

variable {host : Host σ}

/-- **More depth changes nothing** unless the depth is used up. -/
theorem checkWithin_sameUnless {depth depth' : Nat} (hle : depth ≤ depth') (value : Value)
    (definition : Definition) :
    Check.SameUnless (· = .exhausted) (checkWithin host depth value definition)
      (checkWithin host depth' value definition) := by
  induction depth generalizing depth' value definition with
  | zero => exact fun session => .inl ⟨_, session, rfl, rfl⟩
  | succ depth ih =>
    cases depth' with
    | zero => cases hle
    | succ depth' =>
      exact .visiting (.node (ih (Nat.le_of_succ_le_succ hle)) value definition)

/-! ## Definitions that a check comes upon -/

/-- The check of a value within a bound, which stops with a refusal where it has taken up a
definition to be avoided. -/
noncomputable def checkAvoiding (host : Host σ) (avoided : Definition → Session σ → Prop)
    (refusal : ValidationError) : Nat → Value → Definition → Check σ Value
  | 0, _, _ => throw .exhausted
  | depth + 1, value, definition =>
    Check.visiting <| Check.guarding (fun session => ¬ avoided definition session) refusal <|
      Check.node host (checkAvoiding host avoided refusal depth) value definition

/-- The check takes up a definition to be avoided: if it were to stop there, it would come to
something else. -/
def TakesUp (host : Host σ) (avoided : Definition → Session σ → Prop) (depth : Nat)
    (value : Value) (definition : Definition) (session : Session σ) : Prop :=
  ∃ refusal, checkAvoiding host avoided refusal depth value definition session ≠
    checkWithin host depth value definition session

variable {avoided : Definition → Session σ → Prop} {fault : ValidationError}

/-- Where what is avoided ends with a fault, a check that avoids it is the same unless it ends
with that fault. -/
theorem checkWithin_sameUnless_avoiding (havoided : ∀ recurse value definition session,
      avoided definition session →
      ∃ after, Check.node host recurse value definition session = .error fault after)
    (refusal : ValidationError) (depth : Nat) (value : Value) (definition : Definition) :
    Check.SameUnless (· = fault) (checkWithin host depth value definition)
      (checkAvoiding host avoided refusal depth value definition) := by
  induction depth generalizing value definition with
  | zero => exact .refl _
  | succ depth ih =>
    refine .visiting fun session => ?_
    by_cases hnow : avoided definition session
    · obtain ⟨after, hnode⟩ := havoided (checkWithin host depth) value definition session hnow
      exact .inl ⟨fault, after, rfl, hnode⟩
    · rw [Check.guarding_of_permitted hnow]
      exact Check.SameUnless.node ih value definition session

/-- **A check that takes up what ends with a fault ends with it.** -/
theorem fault_of_takesUp (havoided : ∀ recurse value definition session,
      avoided definition session →
      ∃ after, Check.node host recurse value definition session = .error fault after)
    {depth : Nat} {value : Value} {definition : Definition} {session : Session σ}
    (h : TakesUp host avoided depth value definition session) :
    ∃ after, checkWithin host depth value definition session = .error fault after := by
  obtain ⟨refusal, hdiffers⟩ := h
  obtain ⟨_, after, rfl, hfault⟩ | hsame :=
    checkWithin_sameUnless_avoiding havoided refusal depth value definition session
  · exact ⟨after, hfault⟩
  · exact absurd hsame.symm hdiffers

/-- The definition that is checked is itself taken up, if there may be one more. -/
theorem takesUp_self {depth : Nat} {value : Value} {definition : Definition} {session : Session σ}
    (hfew : ¬ maxNesting ≤ session.context.nesting)
    (h : avoided definition ⟨session.context.visited, session.world⟩) :
    TakesUp host avoided (depth + 1) value definition session := by
  have hstops : ∀ refusal, ∃ after, checkAvoiding host avoided refusal (depth + 1) value definition
      session = .error refusal after := by
    intro refusal
    have hguarded : ∀ m : Check σ Value,
        Check.guarding (fun session => ¬ avoided definition session) refusal m
          ⟨session.context.visited, session.world⟩ =
            .error refusal ⟨session.context.visited, session.world⟩ :=
      fun m => if_neg (not_not_intro h)
    simp only [Context.visited] at hguarded
    simp only [checkAvoiding, Check.visiting, Check.readContext, bind, EStateM.bind, if_neg hfew,
      Check.bracket, hguarded]
    exact ⟨_, rfl⟩
  -- One refusal at least is not what the check comes to.
  by_contra hnever
  have hsame : ∀ refusal, checkAvoiding host avoided refusal (depth + 1) value definition session =
      checkWithin host (depth + 1) value definition session := fun refusal =>
    of_not_not fun hdiffers => hnever ⟨refusal, hdiffers⟩
  obtain ⟨after, hfirst⟩ := hstops .exhausted
  obtain ⟨after', hsecond⟩ := hstops (.rejected [])
  rw [hsame, ← hsame .exhausted, hfirst] at hsecond
  cases hsecond

/-! ## Too many thunks in a row -/

theorem node_of_chained {definition : Definition} {session : Session σ}
    (h : definition.Chained host (maxThunkChain + 1) session.world.env) (recurse : Check.Recurse σ)
    (value : Value) : ∃ after, Check.node host recurse value definition session =
      .error (.definition (.thunkChainTooDeep maxThunkChain)) after := by
  obtain ⟨env', hunfold⟩ := h.unfold
  refine ⟨⟨session.context, ⟨session.world.heap, env'⟩⟩, ?_⟩
  simp only [Check.node, Check.readContext, Check.ofForcing, Check.ofRun, Run.ofForcing, resolve,
    bind, EStateM.bind, hunfold]
  rfl

end Conform
