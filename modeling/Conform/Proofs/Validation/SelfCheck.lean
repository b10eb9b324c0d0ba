import Conform.Proofs.Definition.Drafted
import Conform.Proofs.Validation.Grammar

/-!
# Definitions that check themselves

A validator is made of a definition only if the definition, written out as a value, conforms
to the grammar.  What is written out is the draft of the definition, so the verdict is known
from the draft: the one thing that can be wrong with a definition that has been built is that
alternatives are asked for and none is given.  Deferred parts are not looked into.

## Main results

* `Validator.make_ok_iff`: which definitions a validator is made of.
-/

namespace Conform.Validator

variable {σ : Type} {host : Host σ} {world : World σ}

/-- The check of a definition stops at what does not conform to the grammar. -/
theorem withGrammar_of_violations {settings : Settings} {lower : HeapM Value}
    {validator : Except DefinitionError Validator} {violations : List Violation}
    (hself : settings.selfCheck = true)
    (h : let made := Run.ofHeap lower world
      (grammar.errors host made.1 made.2).1 = .ok (some violations)) :
    (withGrammar host settings lower validator world).1 = .error (invalid violations) := by
  unfold withGrammar checkGrammar
  rw [if_pos hself, Run.bind_apply, Run.bind_apply, Run.bind_apply, h]
  rfl

/-- **A validator is made of a definition** exactly if every node that can be seen in the
definition, and asks for alternatives, has some.  If none is made, the definition is called
invalid. -/
theorem make_ok_iff (host : Host σ) (definition : Definition) (world : World σ) :
    ((∃ validator, (make host {} definition world).1 = .ok validator) ↔
      ∀ keywords, definition.Visible (.node keywords) → keywords.either ≠ some []) ∧
    ∀ fault, (make host {} definition world).1 = .error fault →
      ∃ messages, fault = .invalid messages := by
  obtain ⟨violations?, herrors, hverdict⟩ :=
    errors_grammar_of_makes definition.makes_toValue host world
  have hfurnished := hverdict.trans definition.isDefinition_draft_iff
  unfold make
  cases violations? with
  | none =>
    rw [withGrammar_of_conforms herrors]
    exact ⟨iff_of_true ⟨_, rfl⟩ (hfurnished.1 rfl), nofun⟩
  | some violations =>
    rw [withGrammar_of_violations rfl herrors]
    refine ⟨iff_of_false nofun fun h => ?_, ?_⟩
    · cases hfurnished.2 h
    · rintro fault ⟨⟩
      exact ⟨_, rfl⟩

/-- A field without alternatives is refused, unless a later field of its name hides it. -/
example :
    let field : String × Definition := ("a", .node { either := some [] })
    let made := fun fields : List (String × Definition) =>
      (make (default : Host Unit) {} (.node { schema := some (.declared fields) }) ⟨{}, ()⟩).1
    (made [field]).toOption.isSome = false ∧
      (made [field, ("a", .shorthand .string)]).toOption.isSome = true := by
  decide +kernel

end Conform.Validator
