import Conform.Proofs.Definition.Parts
import Conform.Validation.Engine

/-!
# Depth to spare makes no difference

The depth that a check is given bounds how deep definitions nest.  A definition without
deferred parts nests no deeper than it is written, so whatever depth it is given beyond
that makes no difference: every step in is to a part, and a part is less deep.

## Main results

* `Check.node_congr`: checks of a node are the same if those of its parts are.
* `checkWithin_congr`, `check_eq_outcome`: a check is the same at all depths beyond that of
  the definition.
-/

namespace Conform

variable {σ : Type}

/-! ## Nodes -/

namespace Check

variable {host : Host σ} {R₁ R₂ : Recurse σ} {resolved : Resolved}
  (hparts : ∀ part ∈ resolved.node.parts, ∀ value, R₁ value part = R₂ value part)

theorem forM_congr {α : Type} {f g : α → Check σ PUnit} {xs : List α}
    (h : ∀ x ∈ xs, f x = g x) : xs.forM f = xs.forM g := by
  induction xs with
  | nil => rfl
  | cons x xs ih =>
    obtain ⟨hx, hxs⟩ := List.forall_mem_cons.1 h
    change (f x >>= fun _ => xs.forM f) = (g x >>= fun _ => xs.forM g)
    rw [hx, ih hxs]

theorem alternatives_congr {value : Value} {definitions : List Definition}
    (h : ∀ d ∈ definitions, ∀ value, R₁ value d = R₂ value d) (failures : List (List Violation)) :
    alternatives R₁ value failures definitions = alternatives R₂ value failures definitions := by
  induction definitions generalizing failures with
  | nil => rfl
  | cons first rest ih =>
    obtain ⟨hfirst, hrest⟩ := List.forall_mem_cons.1 h
    simp only [alternatives, tryAlternative, hfirst, ih hrest]

include hparts

theorem either_congr (value : Value) : either R₁ resolved value = either R₂ resolved value := by
  unfold either
  split
  · rfl
  · next definitions heither =>
    exact alternatives_congr (fun d hd => hparts d (Node.mem_parts_of_alternative heither hd)) []

theorem items_congr (value : Value) : items R₁ resolved value = items R₂ resolved value := by
  cases hitems : resolved.node.items with
  | none => simp only [items, hitems]
  | some definition =>
    have hitem := hparts definition (Node.mem_parts_of_item hitems)
    cases value <;> simp only [items, hitems, item, entry, hitem]

variable (hdeferred : ∀ code, resolved.node.schema ≠ some (.deferred code))
include hdeferred

theorem schema_congr (value : Value) :
    schema host R₁ resolved value = schema host R₂ resolved value := by
  unfold schema
  split
  · rfl
  · next fields hschema =>
    cases fields with
    | deferred code => exact absurd hschema (hdeferred code)
    | declared fields =>
      -- What is declared is known, so the loop is over the fields of the node.
      have hforced : ofForcing ((Fields.declared fields).resolve host) =
          (pure fields : Check σ (List (String × Definition))) := rfl
      have hfields : ∀ ref, (fields.forM fun entry => field R₁ ref entry.1 entry.2) =
          fields.forM fun entry => field R₂ ref entry.1 entry.2 := by
        intro ref
        refine forM_congr fun entry hmem => ?_
        simp only [field, hparts _ (Node.mem_parts_of_field hschema hmem)]
      simp only [hforced, pure_bind, hfields]

theorem demands_congr (value : Value) :
    demands host R₁ resolved value = demands host R₂ resolved value := by
  have hkeywords : (keywords host R₁).foldlM (fun value keyword => keyword resolved value) value =
      (keywords host R₂).foldlM (fun value keyword => keyword resolved value) value := by
    simp only [keywords, List.foldlM_cons, List.foldlM_nil, either_congr hparts,
      schema_congr hparts hdeferred, items_congr hparts]
  unfold demands
  rw [hkeywords]

end Check

variable {host : Host σ}

/-- **Checks of a node are the same if those of its parts are.** -/
theorem Check.node_congr {R₁ R₂ : Recurse σ} {definition : Definition}
    (hwritten : definition.Written)
    (hparts : ∀ keywords, definition = .node keywords → ∀ part ∈ keywords.parts, ∀ value,
      R₁ value part = R₂ value part) (value : Value) :
    Check.node host R₁ value definition = Check.node host R₂ value definition := by
  obtain ⟨keywords, hresolve, hparts, hdeferred⟩ : ∃ keywords : Node Definition,
      (∀ policy, ofForcing (resolve host policy definition) =
        (pure (policy.complete keywords) : Check σ Resolved)) ∧
      (∀ part ∈ keywords.parts, ∀ value, R₁ value part = R₂ value part) ∧
      ∀ code, keywords.schema ≠ some (.deferred code) := by
    cases hwritten with
    | shorthand type => exact ⟨.ofType type, fun _ => rfl, nofun, nofun⟩
    | node _ _ hdeferred => exact ⟨_, fun _ => rfl, hparts _ rfl, hdeferred⟩
  have hdemands : ∀ (policy : Policy) value, demands host R₁ (policy.complete keywords) value =
      demands host R₂ (policy.complete keywords) value :=
    fun policy value => demands_congr hparts hdeferred value
  simp only [node, hresolve, pure_bind, hdemands]

/-- **A check is the same at all depths** beyond that of the definition. -/
theorem checkWithin_congr {definition : Definition} (hwritten : definition.Written)
    {depth depth' : Nat} (hdepth : definition.depth ≤ depth) (hdepth' : definition.depth ≤ depth')
    (value : Value) : checkWithin host depth value definition =
      checkWithin host depth' value definition := by
  induction depth generalizing depth' definition value with
  | zero => exact absurd hdepth (Nat.not_le.2 definition.depth_pos)
  | succ depth ih =>
    cases depth' with
    | zero => exact absurd hdepth' (Nat.not_le.2 definition.depth_pos)
    | succ depth' =>
      unfold checkWithin
      congr 1
      -- Parts are less deep, so each of the two depths has one to spare for them.
      refine Check.node_congr hwritten ?_ value
      rintro keywords rfl part hpart value
      have hlt := Definition.depth_lt_of_mem_parts hpart
      exact ih (hwritten.of_mem_parts hpart) (by omega) (by omega) value

/-- The bound on how deep definitions nest is enough for a definition without deferred
parts. -/
theorem depth_le_nestingBound (heap : Heap) (definition : Definition) :
    definition.depth ≤ nestingBound heap definition := by
  unfold nestingBound
  omega

/-- A check may be given any depth from that of the definition on. -/
theorem check_eq_outcome {definition : Definition} (hwritten : definition.Written) {depth : Nat}
    (hdepth : definition.depth ≤ depth) (options : Options) (value : Value) (world : World σ) :
    check host options value definition world =
      Check.outcome (checkWithin host depth value definition ⟨.start options, world⟩) := by
  rw [checkWithin_congr hwritten hdepth (depth_le_nestingBound world.heap definition) value]
  rfl

end Conform
