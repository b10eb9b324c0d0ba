import Conform.Proofs.Definition.Conforms
import Conform.Proofs.Definition.Parts
import Conform.Proofs.Validation.Assertion
import Conform.Proofs.Validation.Depth

/-!
# Checks that come to no fault

A definition that is read from a document has nothing in it that could go wrong when it is
used.  It nests no deeper than it is written, so the depth that a check is given is enough.
At one place of the value only alternatives of alternatives are under way together, so there
is room for them unless they nest too deep.  What is left is a default for the value as a
whole that the policy refuses.

## Main definitions

* `Definition.alternation`: how deep alternatives nest directly in each other.
* `Definition.Sound`: definitions with room for their check.

## Main results

* `Check.not_isFault_of_sound`: a check with room for the definition comes to no fault.
* `check_total`: a check that collects violations comes to an outcome.
* `check_ofJson_faultless`: a definition that is read from a document never breaks a check.
-/

namespace Conform

variable {σ : Type}

namespace Definition

/-- The number of nodes with alternatives that nest one directly in the other. -/
def alternation : Definition → Nat :=
  fold (fun _ => 0) (fun _ => 0) fun node =>
    match node.either with
    | none => 0
    | some inner => inner.foldl max 0 + 1

/-- Alternatives have less alternation. -/
theorem alternation_lt {keywords : Node Definition} {alternatives : List Definition}
    {alternative : Definition} (heither : keywords.either = some alternatives)
    (hmem : alternative ∈ alternatives) :
    alternative.alternation < (node keywords).alternation := by
  unfold alternation
  simp only [fold_node, Node.map, heither, Option.map_some]
  exact Nat.lt_succ_of_le ((le_foldl_max _ 0).2 _ (List.mem_map_of_mem hmem))

theorem alternation_node_of_none {keywords : Node Definition} (hnone : keywords.either = none) :
    (node keywords).alternation = 0 := by
  unfold alternation
  simp only [fold_node, Node.map, hnone, Option.map_none]

/-- A definition without deferred parts, for which there is depth, and room at the place
where its check stands. -/
structure Sound (most : Nat) (context : Context) (definition : Definition) : Prop where
  written : definition.Written
  depth : definition.depth ≤ most
  room : context.Roomy (definition.alternation + 1)
  parts : ∀ part, definition.Part part → part.alternation < maxNesting
  rootDefault : context.options.policy.allowRootDefault = true

namespace Sound

variable {depth : Nat} {context : Context} {keywords : Node Definition} {part : Definition}

/-- What is written in a node has room one step on. -/
theorem entered (h : Sound (depth + 1) context (.node keywords)) (hmem : part ∈ keywords.parts)
    (hparts : ∀ other, part.Part other → other.alternation < maxNesting) (ref : Ref)
    (accessor : Accessor) : Sound depth (context.visited.entered ref accessor) part where
  written := h.written.of_mem_parts hmem
  depth := Nat.le_of_lt_succ (Nat.lt_of_lt_of_le (depth_lt_of_mem_parts hmem) h.depth)
  room := h.room.visited.entered ref accessor (hparts part .refl)
  parts := hparts
  rootDefault := h.rootDefault

/-- An alternative has room at the same place. -/
theorem alternative (h : Sound (depth + 1) context (.node keywords))
    {alternatives : List Definition} (heither : keywords.either = some alternatives)
    (hmem : part ∈ alternatives) : Sound depth context.visited part where
  written := h.written.of_mem_parts (Node.mem_parts_of_alternative heither hmem)
  depth := Nat.le_of_lt_succ (Nat.lt_of_lt_of_le
    (depth_lt_of_mem_parts (Node.mem_parts_of_alternative heither hmem)) h.depth)
  room := h.room.visited.mono (alternation_lt heither hmem)
  parts := (forall_part_node.1 h.parts).2.2.2 _ heither _ hmem
  rootDefault := h.rootDefault

theorem fork (h : Sound depth context part) (copies : List (Ref × Ref)) :
    Sound depth (context.fork copies) part :=
  ⟨h.written, h.depth, h.room.fork copies, h.parts, h.rootDefault⟩

/-- Where the check of a node goes on, there is room. -/
theorem leads (host : Host σ) (h : Sound (depth + 1) context (.node keywords)) :
    keywords.Leads host (Sound depth) context.visited where
  field := by
    rintro (fields | code) hschema env declared env' hresolve field hfield ref
    · cases hresolve
      exact h.entered (Node.mem_parts_of_field hschema hfield)
        ((forall_part_node.1 h.parts).2.1 _ hschema _ hfield) ref _
    · exact absurd hschema ((written_node_iff.1 h.written).deferred code)
  item := fun item hitems ref accessor => h.entered (Node.mem_parts_of_item hitems)
    ((forall_part_node.1 h.parts).2.2.1 _ hitems) ref accessor
  either := fun _ heither _ hmem =>
    ⟨h.alternative heither hmem, fun copies => (h.alternative heither hmem).fork copies⟩

end Sound

/-- The name of a type is as sound as the node with this type. -/
theorem Sound.ofType {depth : Nat} {context : Context} {type : TypeName}
    (h : Sound depth context (.shorthand type)) : Sound depth context (.node (.ofType type)) where
  written := written_node_iff.2 ⟨rfl, nofun, nofun, nofun, nofun, nofun⟩
  depth := h.depth
  room := h.room
  parts := by
    have hnone : (node (.ofType type)).alternation = 0 := alternation_node_of_none rfl
    exact forall_part_node.2 ⟨hnone ▸ Nat.le_of_ble_eq_true rfl, nofun, nofun, nofun⟩
  rootDefault := h.rootDefault

end Definition

namespace Check

/-- **The check of a definition with room for it comes to no fault**, whatever the value. -/
theorem keeps_sound (host : Host σ) (depth : Nat) :
    (Regime.free fun fault => ¬ fault.IsFault).Keeps (checkWithin host depth)
      (Definition.Sound depth) := by
  induction depth with
  | zero =>
    intro context value definition _ _ hsound
    exact absurd hsound.depth (Nat.not_le.2 definition.depth_pos)
  | succ depth ih =>
    intro context value definition hadmits _ hsound
    refine .visiting (fun hmany => absurd hsound.room.nesting_lt (Nat.not_lt.2 hmany)) fun _ => ?_
    -- The name of a type is checked like the node with this type.
    obtain ⟨keywords, hunfold, hnode⟩ : ∃ keywords,
        (∀ env, definition.unfold host maxThunkChain env = .ok keywords env) ∧
          Definition.Sound (depth + 1) context (.node keywords) := by
      cases definition with
      | shorthand type => exact ⟨_, fun _ => rfl, hsound.ofType⟩
      | deferred thunk => cases hsound.written
      | node keywords => exact ⟨_, fun _ => rfl, hsound⟩
    have hvisited : (Regime.free fun fault => ¬ fault.IsFault).Admits context.visited := hadmits
    refine Regime.ensures_node ih hvisited trivial (fun env fault env' hresolve => ?_) ?_
    · simp only [resolve, Bind.bind, EStateM.bind, hunfold] at hresolve
      cases hresolve
    intro env _ env' hok
    rw [hunfold env] at hok
    cases hok
    -- A default may stand at the root, and no fields have to be made first.
    refine ⟨Regime.permits_free _ host _, ⟨fun _ _ hrefused => ?_, ?_⟩, hnode.leads host⟩
    · rw [show context.visited.options.policy.allowRootDefault = true from hnode.rootDefault]
        at hrefused
      cases hrefused
    · rintro (fields | code) hschema env fault env' hresolve
      · cases hresolve
      · exact absurd hschema ((Definition.written_node_iff.1 hnode.written).deferred code)

end Check

variable {host : Host σ} {options : Options} {definition : Definition}

/-- The check of a definition whose alternatives do not nest too deep ends with no fault, if
a default may stand in for the value as a whole. -/
theorem not_isFault_of_check (hwritten : definition.Written)
    (halternation : ∀ part, definition.Part part → part.alternation < maxNesting)
    (hroot : options.policy.allowRootDefault = true) (value : Value) (world : World σ)
    {fault : ValidationError} {after : World σ}
    (h : check host options value definition world = (.error fault, after)) : ¬ fault.IsFault := by
  have hsound : definition.Sound (nestingBound world.heap definition) (.start options) :=
    ⟨hwritten, depth_le_nestingBound _ _, .start options (halternation _ .refl), halternation,
      hroot⟩
  have hends := Check.keeps_sound host (nestingBound world.heap definition) (.start options) value
    definition (fun _ _ => nofun) trivial hsound [] world trivial
  unfold check at h
  rw [show (Context.start options).holding [] = .start options from rfl] at hends
  generalize checkWithin host (nestingBound world.heap definition) value definition
    ⟨.start options, world⟩ = r at hends h
  cases hends with
  | ok => cases h
  | error _ hfault => cases h; exact hfault

/-- **A check that collects violations comes to an outcome**, whatever the value. -/
theorem check_total (hwritten : definition.Written)
    (halternation : ∀ part, definition.Part part → part.alternation < maxNesting)
    (hroot : options.policy.allowRootDefault = true) (hcollecting : options.assert = false)
    (value : Value) (world : World σ) :
    ∃ outcome after, check host options value definition world = (.ok outcome, after) := by
  cases hrun : check host options value definition world with
  | mk result after =>
    cases result with
    | ok outcome => exact ⟨outcome, after, rfl⟩
    | error fault =>
      -- What stops a check that collects violations is a fault.
      refine absurd ?_ (not_isFault_of_check hwritten halternation hroot value world hrun)
      unfold check at hrun
      cases hwithin : checkWithin host (nestingBound world.heap definition) value definition
          ⟨.start options, world⟩ with
      | ok result session => rw [hwithin] at hrun; cases hrun
      | error fault' session =>
        rw [hwithin] at hrun
        cases hrun
        exact Check.isFault_of_collecting hcollecting hwithin

/-! ## Definitions that are read from documents -/

/-- **A definition that is read from a document never breaks a check**: where fewer than
`maxNesting` nodes with alternatives nest directly in each other, and a default may stand in
for the value as a whole, no check comes to a fault of the definition or runs out of depth,
and a check that collects violations comes to an outcome. -/
theorem check_ofJson_faultless {json : Json} (hread : Definition.ofJson json = .ok definition)
    (halternation : ∀ part, definition.Part part → part.alternation < maxNesting)
    (hroot : options.policy.allowRootDefault = true) (value : Value) (world : World σ) :
    (∀ fault, (check host options value definition world).1 ≠ .error (.definition fault)) ∧
      (check host options value definition world).1 ≠ .error .exhausted ∧
        (options.assert = false →
          ∃ outcome, (check host options value definition world).1 = .ok outcome) := by
  have hwritten := Definition.written_ofJson json hread
  have hfault : ∀ fault, (check host options value definition world).1 = .error fault →
      ¬ fault.IsFault := by
    intro fault hends
    cases hrun : check host options value definition world with
    | mk result after =>
      obtain rfl : result = .error fault := by rwa [hrun] at hends
      exact not_isFault_of_check hwritten halternation hroot value world hrun
  refine ⟨fun fault hends => hfault _ hends (.definition fault),
    fun hends => hfault _ hends .exhausted, fun hcollecting => ?_⟩
  obtain ⟨outcome, after, hok⟩ :=
    check_total hwritten halternation hroot hcollecting value world
  exact ⟨outcome, congrArg Prod.fst hok⟩

namespace Definition

/-- Alternatives that nest directly in each other the given number of times, around the name
of a type. -/
def nestedChoice : Nat → Definition
  | 0 => .shorthand .array
  | times + 1 => .node { either := some [nestedChoice times] }

/-- The document of alternatives that nest. -/
def nestedChoiceJson : Nat → Json
  | 0 => .string "array"
  | times + 1 => .object [("either", .array [nestedChoiceJson times])]

theorem ofJson_nestedChoiceJson (times : Nat) :
    ofJson (nestedChoiceJson times) = .ok (nestedChoice times) := by
  induction times with
  | zero => simp only [nestedChoiceJson, ofJson]; rfl
  | succ times ih =>
    simp only [nestedChoiceJson, ofJson, nodeOfMembers, alternativesOfJson, alternativesOfItems,
      ih]
    rfl

theorem alternation_nestedChoice_le {times : Nat} {part : Definition}
    (hpart : (nestedChoice times).Part part) : part.alternation ≤ times := by
  induction times generalizing part with
  | zero => cases hpart; exact Nat.le_refl 0
  | succ times ih =>
    cases hpart with
    | refl =>
      have hinner := ih .refl
      unfold alternation at hinner ⊢
      simp only [nestedChoice, fold_node, Node.map, Option.map_some, List.map_cons, List.map_nil,
        List.foldl_cons, List.foldl_nil, Nat.zero_max]
      exact Nat.succ_le_succ hinner
    | field hschema => cases hschema
    | item hitems => cases hitems
    | alternative heither hmem hpart =>
      cases heither
      cases List.mem_singleton.1 hmem
      exact Nat.le_succ_of_le (ih hpart)

end Definition

/-- One choice less than would be too many, made of an array that holds itself. -/
theorem check_nestedChoice_faultless :
    let definition := Definition.nestedChoice 63
    let world : World Unit := ⟨{ containers := #[.array [.array 0]] }, ()⟩
    (∀ part, definition.Part part → part.alternation < maxNesting) ∧
      (∀ fault, (check default {} (.array 0) definition world).1 ≠ .error (.definition fault)) ∧
        (check default {} (.array 0) definition world).1 ≠ .error .exhausted ∧
          ∃ outcome, (check default {} (.array 0) definition world).1 = .ok outcome := by
  have hroom : ∀ part, (Definition.nestedChoice 63).Part part → part.alternation < maxNesting :=
    fun part hpart => Nat.lt_succ_of_le (Definition.alternation_nestedChoice_le hpart)
  obtain ⟨hdefinition, hexhausted, htotal⟩ :=
    @check_ofJson_faultless Unit default {} _ _ (Definition.ofJson_nestedChoiceJson 63) hroom rfl
      (.array 0) ⟨{ containers := #[.array [.array 0]] }, ()⟩
  exact ⟨hroom, hdefinition, hexhausted, htotal rfl⟩

end Conform
