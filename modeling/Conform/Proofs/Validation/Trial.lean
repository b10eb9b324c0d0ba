import Conform.Proofs.Validation.Restoration

/-!
# Alternatives in turn

Alternatives are tried in the order in which they stand, and the trial of one begins
where the one before has left the heap.  There are three ways for this to end: all of
them fail, a trial comes to a fault, or one of them is clean.

## Main definitions

* `Check.Failed`: alternatives tried in turn, none of them clean.
* `Check.FirstClean`: the first clean alternative, after others have failed.

## Main results

* `Check.alternatives_cases`: the three ways to end.
-/

namespace Conform.Check

variable {σ : Type} (recurse : Recurse σ) (value : Value)

/-- Alternatives that are tried in turn and fail, with the violations of each. -/
inductive Failed : List Definition → Session σ → List (List Violation) → Session σ → Prop where
  | nil {session : Session σ} : Failed [] session [] session
  | cons {alternative : Definition} {rest : List Definition} {session middle after : Session σ}
      {violations : List Violation} {inner : List (List Violation)} :
      tryAlternative recurse value alternative session = .ok violations middle →
      violations ≠ [] → Failed rest middle inner after →
      Failed (alternative :: rest) session (violations :: inner) after

/-- An alternative that is clean when all before it have failed. -/
def FirstClean (definitions : List Definition) (session : Session σ) (alternative : Definition)
    (after : Session σ) : Prop :=
  ∃ before rest inner middle, definitions = before ++ alternative :: rest ∧
    Failed recurse value before session inner middle ∧
    tryAlternative recurse value alternative middle = .ok [] after

/-- An alternative whose trial comes to a fault when all before it have failed. -/
def FirstFault (definitions : List Definition) (session : Session σ) (fault : ValidationError)
    (after : Session σ) : Prop :=
  ∃ before alternative rest inner middle, definitions = before ++ alternative :: rest ∧
    Failed recurse value before session inner middle ∧
    tryAlternative recurse value alternative middle = .error fault after

variable {recurse value}

theorem FirstClean.cons {alternative first : Definition} {rest : List Definition}
    {session middle after : Session σ} {violations : List Violation}
    (htry : tryAlternative recurse value first session = .ok violations middle)
    (hviolations : violations ≠ []) (h : FirstClean recurse value rest middle alternative after) :
    FirstClean recurse value (first :: rest) session alternative after := by
  obtain ⟨before, rest, inner, last, rfl, hfailed, hclean⟩ := h
  exact ⟨first :: before, rest, violations :: inner, last, rfl,
    .cons htry hviolations hfailed, hclean⟩

theorem FirstFault.cons {first : Definition} {rest : List Definition}
    {session middle after : Session σ} {violations : List Violation} {fault : ValidationError}
    (htry : tryAlternative recurse value first session = .ok violations middle)
    (hviolations : violations ≠ []) (h : FirstFault recurse value rest middle fault after) :
    FirstFault recurse value (first :: rest) session fault after := by
  obtain ⟨before, alternative, rest, inner, last, rfl, hfailed, hfault⟩ := h
  exact ⟨first :: before, alternative, rest, violations :: inner, last, rfl,
    .cons htry hviolations hfailed, hfault⟩

theorem tryAlternative_apply (alternative : Definition) (session : Session σ) :
    tryAlternative recurse value alternative session =
      trial (value.copyWithOrigins session.world.heap).1.2
        (recurse (value.copyWithOrigins session.world.heap).1.1 alternative)
        ⟨session.context, ⟨(value.copyWithOrigins session.world.heap).2, session.world.env⟩⟩ := rfl

/-- A trial leaves the context as it is. -/
theorem context_tryAlternative {alternative : Definition} {session : Session σ}
    {r : EStateM.Result ValidationError (Session σ) (List Violation)}
    (h : tryAlternative recurse value alternative session = r) :
    (final r).context = session.context := by
  rw [← h, tryAlternative_apply]
  simp only [trial]
  split <;> rfl

theorem Failed.context_eq {definitions : List Definition} {session after : Session σ}
    {inner : List (List Violation)} (h : Failed recurse value definitions session inner after) :
    after.context = session.context := by
  induction h with
  | nil => rfl
  | cons htry _ _ ih =>
    have hcontext := context_tryAlternative htry
    rw [final_ok] at hcontext
    rw [ih, hcontext]

/-- Where all alternatives fail, none is clean at its turn. -/
theorem Failed.not_firstClean {definitions : List Definition} {session after : Session σ}
    {inner : List (List Violation)} (h : Failed recurse value definitions session inner after)
    {alternative : Definition} {last : Session σ} :
    ¬ FirstClean recurse value definitions session alternative last := by
  induction h with
  | nil =>
    rintro ⟨before, rest, inner, middle, heq, -⟩
    exact List.append_ne_nil_of_right_ne_nil before (List.cons_ne_nil _ _) heq.symm
  | @cons first rest session middle after violations inner htry hviolations _ ih =>
    -- The first alternative would be the clean one, or one of those that fail before it.
    rintro ⟨before, rest', inner', middle', heq, hfailed, hclean⟩
    cases hfailed with
    | nil =>
      obtain ⟨rfl, -⟩ := List.cons.inj heq
      rw [htry] at hclean
      cases hclean
      exact hviolations rfl
    | cons htry' _ hfailed' =>
      obtain ⟨rfl, hrest⟩ := List.cons.inj heq
      rw [htry] at htry'
      cases htry'
      exact ih ⟨_, rest', _, middle', hrest, hfailed', hclean⟩

/-- **Alternatives in turn** all fail, come to a fault, or come to one that is clean; the
violations of those that fail are kept in order. -/
theorem alternatives_cases (failures : List (List Violation)) (definitions : List Definition)
    (session : Session σ) :
    (∃ inner after, Failed recurse value definitions session inner after ∧
      alternatives recurse value failures definitions session =
        (do report .noAlternative (failures ++ inner); return value : Check σ Value) after) ∨
    (∃ fault after, FirstFault recurse value definitions session fault after ∧
      alternatives recurse value failures definitions session = .error fault after) ∨
    ∃ alternative after, FirstClean recurse value definitions session alternative after ∧
      alternatives recurse value failures definitions session =
        recurse value alternative after := by
  -- Each trial moves the session on, and each failure adds to those that are complained about.
  induction definitions generalizing failures session with
  | nil => exact .inl ⟨[], session, .nil, by rw [List.append_nil]; rfl⟩
  | cons first rest ih =>
    have hstep : alternatives recurse value failures (first :: rest) session =
        (do
          let violations ← tryAlternative recurse value first
          if violations.isEmpty then recurse value first
          else alternatives recurse value (failures ++ [violations]) rest : Check σ Value)
          session := rfl
    simp only [Bind.bind, EStateM.bind] at hstep
    cases htry : tryAlternative recurse value first session with
    | error fault after =>
      rw [htry] at hstep
      exact .inr (.inl ⟨fault, after, ⟨[], first, rest, [], session, rfl, .nil, htry⟩, hstep⟩)
    | ok violations middle =>
      rw [htry] at hstep
      cases violations with
      | nil =>
        exact .inr (.inr ⟨first, middle, ⟨[], rest, [], session, rfl, .nil, htry⟩, hstep⟩)
      | cons violation more =>
        have hviolations : violation :: more ≠ [] := List.cons_ne_nil _ _
        rw [hstep]
        rcases ih (failures ++ [violation :: more]) middle with
          ⟨inner, after, hfailed, hend⟩ | ⟨fault, after, hfault, hend⟩ |
            ⟨alternative, after, hclean, hend⟩
        · refine .inl ⟨(violation :: more) :: inner, after, .cons htry hviolations hfailed, ?_⟩
          rw [← List.append_cons] at hend
          exact hend
        · exact .inr (.inl ⟨fault, after, hfault.cons htry hviolations, hend⟩)
        · exact .inr (.inr ⟨alternative, after, hclean.cons htry hviolations, hend⟩)

end Conform.Check
