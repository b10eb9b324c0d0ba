import Conform.Proofs.Validation.Conformance

/-!
# What definitions with deferred parts say

Where thunks and deferred fields are the same each time that they are produced, a definition
says the same as if they were written out.  This may go on without end, so what is said is
followed down so far as the check itself goes.

## Main definitions

* `Definition.Means`: what a definition says of a value, some definitions deep.

## Main results

* `Check.decides_means`: the check decides what a definition says.
-/

namespace Conform

variable {σ : Type}

/-- The fields of a node that the host produces in a given state; none where it cannot. -/
def Node.produced (host : Host σ) (env : σ) (node : Node Definition) :
    List (String × Definition) :=
  match node.schema with
  | none => []
  | some fields => ((fields.resolve host).outcome env).toOption.getD []

/-- What a definition says of a value, if at most `depth` definitions nest and deferred parts
are produced as in a given state of the host. -/
def Definition.Means (host : Host σ) (env : σ) (policy : Policy) (heap : Heap) :
    Nat → Definition → Value → Prop
  | 0, _, _ => False
  | depth + 1, definition, value =>
    ∃ keywords, (definition.unfold host maxThunkChain).outcome env = .ok keywords ∧
      ((keywords.spelled (keywords.produced host env)).map
        (Means host env policy heap depth)).Conforms policy heap value

namespace Check

variable {host : Host σ} {base : Heap} {keywords : Node Definition}

/-- A node that is repeatable and inert is ready, with the fields that are produced. -/
theorem ready_of_throughout
    (h : Definition.Throughout host (fun d => d.Repeatable host ∧ d.Inert) (.node keywords))
    (env : σ) :
    Ready host (Definition.Throughout host fun d => d.Repeatable host ∧ d.Inert) keywords
      (keywords.produced host env) := by
  obtain ⟨hrepeatable, hfallback, hkind⟩ := h.self
  refine ⟨hfallback, hkind, hrepeatable.custom _ rfl, ?_, ?_, fun _ hitems =>
    h.of_met (.item .refl hitems), fun _ heither _ hmem => ?_⟩
  · intro fields hschema env₁ declared env₂ hok
    -- The fields are the same in the given state as in any other.
    have houtcome := Forcing.outcome_eq_ok.2 ⟨env₂, hok⟩
    rw [hrepeatable.steady fields hschema env₁ env] at houtcome
    rw [Node.produced, hschema]
    simp only [houtcome]
    rfl
  · intro field hfield
    unfold Node.produced at hfield
    split at hfield
    · cases hfield
    · next fields hschema =>
      cases houtcome : (fields.resolve host).outcome env with
      | error fault => rw [houtcome] at hfield; cases hfield
      | ok declared =>
        rw [houtcome] at hfield
        obtain ⟨env', hok⟩ := Forcing.outcome_eq_ok.1 houtcome
        exact h.of_met (.field .refl hschema hok hfield)
  · have halternative := h.of_met (.alternative .refl heither hmem)
    exact ⟨halternative, halternative.imp fun _ h => h.1⟩

/-- **The check decides what a definition says**, also where parts of it are deferred. -/
theorem decides_means (env : σ) (depth : Nat) :
    Recurse.Decides base (checkWithin host depth)
      (Definition.Throughout host fun d => d.Repeatable host ∧ d.Inert)
      fun policy definition => definition.Means host env policy base depth := by
  induction depth with
  | zero => exact fun context value definition hclear hdefinition => .throw
  | succ depth ih =>
    intro context value definition hclear hdefinition
    have hsteady : (definition.unfold host maxThunkChain).Steady :=
      Definition.steady_unfold (hdefinition.imp fun _ h => h.1.steady) maxThunkChain
    refine .visiting ?_
    cases houtcome : (definition.unfold host maxThunkChain).outcome env with
    | error fault =>
      refine Decides.after (.readContext (f := fun c => c.options.policy) fun _ => rfl)
        (.ofForcing_of_error fun env₁ resolved env₂ hresolve => ?_)
      obtain ⟨keywords, hok, -⟩ := Definition.unfold_of_resolve hresolve
      have hthen := Forcing.outcome_eq_ok.2 ⟨env₂, hok⟩
      rw [hsteady env₁ env, houtcome] at hthen
      cases hthen
    | ok keywords =>
      obtain ⟨env', hok⟩ := Forcing.outcome_eq_ok.1 houtcome
      have hnode := hdefinition.of_met (Definition.met_unfold hok)
      refine (decides_node ih hclear.visited (fun env₁ node env₂ hnode => ?_)
        (ready_of_throughout hnode env)).congr ?_
      · have hthen := Forcing.outcome_eq_ok.2 ⟨env₂, hnode⟩
        rw [hsteady env₁ env, houtcome] at hthen
        exact (Except.ok.inj hthen).symm
      · change _ ↔ definition.Means host env context.options.policy base (depth + 1) value
        rw [Definition.Means, houtcome]
        simp only [Except.ok.injEq, exists_eq_left']
        rfl

end Check

end Conform
