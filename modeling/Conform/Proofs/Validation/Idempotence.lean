import Conform.Proofs.Definition.Provenance
import Conform.Proofs.Validation.Depth
import Conform.Proofs.Validation.Evolution
import Conform.Proofs.Validation.Recurrence

/-!
# Checking once is enough

A check fills in defaults and puts moments in the place of what encodes them.  Done again on
what it has returned, it has nothing left to do: it finds the same violations and changes
nothing.  This holds of trees, and of definitions whose keywords keep out of each other's
way.  Where two keywords of a node go into the parts of a container, the first may find
something else in what the second has made of them; and so may a keyword that has looked at
the container before.

A default is made anew each time it is needed, but it is needed only once: nothing else is
null afterwards than what was null and had no default, or null for a default.

## Main definitions

* `Node.Unmixed`, `Definition.Unmixed`: keywords that keep out of each other's way.
* `Check.Prepared`: a node with nothing deferred, and checks of whose parts recur.

## Main results

* `Check.fixes_keywords`: the keywords of a node find the same again.
* `Check.recurs_checkWithin`: so does every check.
* `check_idempotent`: a second check changes nothing.
-/

namespace Conform

variable {σ : Type}

/-! ## Nodes whose keywords keep out of each other's way -/

/-- A node without alternatives in which at most one keyword goes into the parts of a
container, and none looks at the container before it. -/
structure Node.Unmixed {δ : Type} (node : Node δ) : Prop where
  either : node.either = none
  items : node.items ≠ none → node.schema = none ∧ node.require = none ∧ node.restrict = none
  allowed : node.allowed ≠ none → node.schema = none ∧ node.items = none

namespace Definition

/-- All nodes of a definition are unmixed. -/
def Unmixed (definition : Definition) : Prop :=
  ∀ keywords, definition.Part (.node keywords) → keywords.Unmixed

theorem unmixed_shorthand (type : TypeName) : Unmixed (.shorthand type) := by
  rintro keywords ⟨⟩

theorem unmixed_node_iff {keywords : Node Definition} :
    Unmixed (.node keywords) ↔ keywords.Unmixed ∧ ∀ part ∈ keywords.parts, part.Unmixed := by
  constructor
  · intro h
    exact ⟨h keywords .refl, fun part hpart inner hinner => h inner (.of_mem_parts hpart hinner)⟩
  · rintro ⟨hself, hparts⟩ inner hinner
    cases hinner with
    | refl => exact hself
    | field hschema hfield hinner =>
      exact hparts _ (Node.mem_parts_of_field hschema hfield) inner hinner
    | item hitems hinner => exact hparts _ (Node.mem_parts_of_item hitems) inner hinner
    | alternative heither hmem hinner =>
      exact hparts _ (Node.mem_parts_of_alternative heither hmem) inner hinner

end Definition

namespace Check

variable {context : Context} {world : World σ} {value : Value} {resolved : Resolved}

/-! ## Nodes -/

/-- A node whose keywords keep out of each other's way, with nothing deferred in it, and
checks of whose parts recur. -/
structure Prepared (recurse : Recurse σ) (node : Node Definition) : Prop where
  custom : node.custom = none
  fallback : ∀ code, node.fallback ≠ some (.produced code)
  deferred : ∀ code, node.schema ≠ some (.deferred code)
  nodup : ∀ fields, node.schema = some (.declared fields) → (Entries.keys fields).Nodup
  unmixed : node.Unmixed
  recurs : ∀ part ∈ node.parts, Recurs recurse part

section Nodes

variable {host : Host σ} {recurse : Recurse σ}

/-- What is there needs no default. -/
theorem supply_of_ne_null (h : value ≠ .null) : supply host resolved value = pure value := by
  cases value with
  | null => exact absurd rfl h
  | _ => rfl

variable (hprepared : Prepared recurse resolved.node)
include hprepared

/-- The value that stands in for an absent one is planted; where it is null again, nothing
has been made. -/
theorem leaves_supply (hplanted : world.heap.Planted value) :
    Leaves context world (supply host resolved value) fun result added after => added = [] ∧
      after.heap.Planted result ∧ (result = .null → ∀ later : World σ,
        Observes context later (supply host resolved .null) .null []) := by
  by_cases hnull : value = .null
  · subst hnull
    cases hfallback : resolved.node.fallback with
    | none =>
      have hsupply : supply host resolved .null = pure .null := by simp only [supply, hfallback]
      rw [hsupply]
      exact .of_observes (.pure _) ⟨rfl, hplanted, fun _ _ => .pure _⟩
    | some fallback =>
      cases fallback with
      | produced code => exact absurd hfallback (hprepared.fallback code)
      | literal json =>
        simp only [supply, hfallback]
        refine .after (.readContext fun _ => rfl) ?_
        split
        · exact .after (.readContext (f := Context.pathText) fun _ => rfl) (.throw _)
        · next hallowed =>
          refine .ofRun ⟨rfl, Heap.planted_ofJson json world.heap, fun hnull later => ?_⟩
          refine Observes.after (.readContext fun _ => rfl) ?_
          rw [if_neg hallowed]
          -- Only the document null is made null, and then nothing is made.
          cases json with
          | null => exact .ofRun rfl
          | _ => cases hnull
  · rw [supply_of_ne_null hnull]
    exact .of_observes (.pure _) ⟨rfl, hplanted, fun h => absurd h hnull⟩

variable (hcollecting : context.asserting = false)
include hcollecting

/-- **The keywords after the type** fix what the type has made of the value: at most one
goes into the parts, and those before it do not look at the heap. -/
theorem fixes_keywords (hplanted : world.heap.Planted value) :
    Fixes context world value
      (List.foldlM (fun value keyword => keyword resolved value) value
        [oneOf, bounds, either recurse, schema host recurse, require, restrict, items recurse,
          custom host]) value := by
  -- A keyword that is not set passes the value on.
  have hunset : ∀ {m : Check σ Value} (known : World σ → Prop), m = pure value →
      Uniform context known m value := fun known heq => heq ▸ .pure value
  have heither : either recurse resolved value = pure value := by
    simp only [either, hprepared.unmixed.either]
  have hcustom : custom host resolved value = pure value := by
    simp only [custom, hprepared.custom]
  have hbounds : ∀ known : World σ → Prop, Uniform context known (bounds resolved value) value :=
    uniform_bounds hcollecting
  have hrequire : ∀ heap : Heap, Uniform context (Retaining σ heap value)
      (require resolved value) value := uniform_require hcollecting
  have hrestrict : ∀ heap : Heap, Uniform context (Retaining σ heap value)
      (restrict resolved value) value := uniform_restrict hcollecting
  cases hitems : resolved.node.items with
  | some item =>
    obtain ⟨hschema, hnoRequire, hnoRestrict⟩ := hprepared.unmixed.items (by simp [hitems])
    have hallowed : resolved.node.allowed = none := by
      by_contra hsome
      simp [(hprepared.unmixed.allowed hsome).2] at hitems
    have hrecurs := hprepared.recurs item (Node.mem_parts_of_item hitems)
    -- Items come last, and nothing that is set before them looks at the heap.
    refine .foldlM [oneOf, bounds, either recurse, schema host recurse, require, restrict]
      [custom host] ?_ (fixes_items hcollecting hplanted hitems hrecurs) ?_
    · simp only [List.mem_cons, List.not_mem_nil, or_false, forall_eq_or_imp, forall_eq]
      refine ⟨hunset _ ?_, hbounds _, hunset _ heither, hunset _ ?_, hunset _ ?_, hunset _ ?_⟩
      · simp only [oneOf, hallowed]
      · simp only [schema, hschema]
      · simp only [require, hnoRequire]
      · simp only [restrict, hnoRestrict]
    · simp only [List.mem_cons, List.not_mem_nil, or_false, forall_eq]
      exact fun _ => hunset _ hcustom
  | none =>
    have hnoItems : items recurse resolved value = pure value := by simp only [items, hitems]
    rcases hschema : resolved.node.schema with _ | (fields | code)
    · have hnoSchema : schema host recurse resolved value = pure value := by
        simp only [schema, hschema]
      -- Nothing goes into the parts, so all keywords only look.
      refine .foldlM [] [bounds, either recurse, schema host recurse, require, restrict,
        items recurse, custom host] (List.forall_mem_nil _)
        (.of_uniform hplanted.holds (uniform_oneOf hcollecting _)) ?_
      simp only [List.mem_cons, List.not_mem_nil, or_false, forall_eq_or_imp, forall_eq]
      exact ⟨fun _ => hbounds _, fun _ => hunset _ heither, fun _ => hunset _ hnoSchema, hrequire,
        hrestrict, fun _ => hunset _ hnoItems, fun _ => hunset _ hcustom⟩
    · have hallowed : resolved.node.allowed = none := by
        by_contra hsome
        simp [(hprepared.unmixed.allowed hsome).1] at hschema
      have hrecurs : ∀ field ∈ fields, Recurs recurse field.2 :=
        fun field hfield => hprepared.recurs _ (Node.mem_parts_of_field hschema hfield)
      -- What looks at the object comes after its fields have been gone through.
      refine .foldlM [oneOf, bounds, either recurse] [require, restrict, items recurse, custom host]
        ?_ (fixes_schema hcollecting hplanted hschema (hprepared.nodup fields hschema) hrecurs) ?_
      · simp only [List.mem_cons, List.not_mem_nil, or_false, forall_eq_or_imp, forall_eq]
        refine ⟨hunset _ ?_, hbounds _, hunset _ heither⟩
        simp only [oneOf, hallowed]
      · simp only [List.mem_cons, List.not_mem_nil, or_false, forall_eq_or_imp, forall_eq]
        exact ⟨hrequire, hrestrict, fun _ => hunset _ hnoItems, fun _ => hunset _ hcustom⟩
    · exact absurd hschema (hprepared.deferred code)

/-- **What the demands of a node make of a value** they make again; they make nothing of
nothing, and something of something. -/
theorem leaves_demands (hplanted : world.heap.Planted value) :
    Leaves context world (demands host recurse resolved value) fun result added after =>
      (result = .null ↔ value = .null) ∧ after.heap.Holds result ∧
        Repeats context after.heap (demands host recurse resolved) result added := by
  by_cases hnull : value = .null
  · subst hnull
    obtain ⟨added, hadded⟩ : Uniform context (fun _ : World σ => True)
        (demands host recurse resolved .null) .null :=
      (Uniform.demand hcollecting (!resolved.required) .missing).returning _
    exact .of_observes (hadded world trivial)
      ⟨Iff.rfl, hplanted.holds, fun later _ => hadded later trivial⟩
  · have hdemands : ∀ v : Value, v ≠ .null → demands host recurse resolved v =
        (do let v ← type resolved v
            List.foldlM (fun value keyword => keyword resolved value) v
              [oneOf, bounds, either recurse, schema host recurse, require, restrict,
                items recurse, custom host]) := by
      intro v hv
      have habsent : ¬ v.isAbsent = true := fun h => hv ((Value.isAbsent_iff v).1 h)
      rw [demands, if_neg habsent]
      rfl
    -- The type keeps the value, or puts a moment in its place that it keeps.
    obtain ⟨result, typed, hresult, hpresent, hfirst, hagain⟩ : ∃ result typed,
        (result = value ∨ result.ref? = none) ∧ result ≠ .null ∧
        (∀ later : World σ, Observes context later (type resolved value) result typed) ∧
        ∀ later : World σ, Observes context later (type resolved result) result typed := by
      rcases (type_cases hcollecting : Uniform context (fun _ : World σ => True)
        (type resolved value) value ∨ _) with ⟨added, hadded⟩ | ⟨moment, hfirst, hagain⟩
      · exact ⟨value, added, .inl rfl, hnull, fun later => hadded later trivial,
          fun later => hadded later trivial⟩
      · exact ⟨.dateTime moment, [], .inr rfl, Value.noConfusion, fun later => hfirst ▸ .pure _,
          fun later => hagain ▸ .pure _⟩
    have hplanted' : world.heap.Planted result := by
      rcases hresult with rfl | hnone
      · exact hplanted
      · exact Heap.planted_of_ref?_none hnone
    rw [hdemands value hnull]
    refine .after (hfirst world) ((fixes_keywords hprepared hcollecting hplanted').imp ?_)
    rintro _ more after ⟨rfl, hholds, hfixed⟩
    refine ⟨iff_of_false hpresent hnull, hholds, fun later hlater => ?_⟩
    rw [hdemands _ hpresent]
    exact (hagain later).bind (hfixed later hlater)

end Nodes

/-- **What the check of a node makes of a value** it makes again. -/
theorem leaves_node {host : Host σ} {recurse : Recurse σ} {definition : Definition}
    {keywords : Node Definition} (hresolve : ∀ policy, ofForcing (resolve host policy definition) =
      (pure (policy.complete keywords) : Check σ Resolved))
    (hprepared : Prepared recurse keywords) (hcollecting : context.asserting = false)
    (hplanted : world.heap.Planted value) :
    Leaves context world (node host recurse value definition) fun result added after =>
      after.heap.Holds result ∧
        Repeats context after.heap (node host recurse · definition) result added := by
  have hnode : ∀ v, node host recurse v definition = (do
      let policy ← readContext fun context => context.options.policy
      let v ← supply host (policy.complete keywords) v
      demands host recurse (policy.complete keywords) v) := by
    intro v
    simp only [node, hresolve, pure_bind]
  have hpolicy : ∀ later : World σ, Observes context later
      (readContext fun context => context.options.policy) context.options.policy [] :=
    fun _ => .readContext fun _ => rfl
  rw [hnode]
  refine .after (hpolicy world) ((leaves_supply hprepared hplanted).bind ?_)
  rintro v _ after ⟨rfl, hv, hagain⟩
  -- What has come out is something, and so needs no default, or nothing has been made of it.
  refine (leaves_demands hprepared hcollecting hv).imp ?_
  rintro result added final ⟨hnull, hholds, hrepeats⟩
  refine ⟨hholds, fun later hlater => ?_⟩
  change Observes context later (node host recurse result definition) result added
  rw [hnode]
  refine (hpolicy later).after (Observes.after ?_ (hrepeats later hlater))
  by_cases hresult : result = .null
  · subst hresult
    exact hagain (hnull.1 rfl) later
  · rw [supply_of_ne_null hresult]
    exact .pure _

/-! ## Whole checks -/

/-- A check touches nothing but what the value leads to and what is new, and the result leads
to nothing else. -/
theorem leaves_checkWithin (host : Host σ) (depth : Nat) {definition : Definition}
    (hwritten : definition.Written) :
    Leaves context world (checkWithin host depth value definition) fun result _ after =>
      world.heap.size ≤ after.heap.size ∧
        (∀ ref, ref < world.heap.size → ¬ world.heap.Reachable value ref →
          after.heap.fetch ref = world.heap.fetch ref) ∧
        ∀ ref, after.heap.Reachable result ref → world.heap.Touchable value ref := by
  let R : Regime := .evolving world.heap value
  have hensures : R.terms.Ensures context (checkWithin host depth value definition)
      (R.Makes value) :=
    R.ensures_checkWithin (fun _ _ => trivial) host Definition.Unaided
      (fun _ => Regime.permits_evolving) depth context value definition (fun _ _ => trivial)
      (fun ref href => .inl (.root href)) ((hwritten.throughout host).imp fun _ h => h.unaided)
  refine (Leaves.of_ensures hensures (world.heap.evolved_self value)).imp ?_
  rintro result added after ⟨⟨⟨hsize, hframe, hclosed⟩, -⟩, howns, -⟩
  refine ⟨hsize, fun ref hlt hout => hframe ref hlt ?_, fun ref hreach => ?_⟩
  · exact fun htouchable => htouchable.elim hout (Nat.not_le.2 hlt)
  · induction hreach with
    | root href => exact howns _ href
    | child _ hchild ih => exact hclosed _ _ ih hchild

/-- **What a check makes of a planted value** it makes again. -/
theorem recurs_checkWithin (host : Host σ) (depth : Nat) {definition : Definition}
    (hwritten : definition.Written) (hunmixed : definition.Unmixed)
    (hnodup : ∀ keywords, definition.Part (.node keywords) → ∀ fields,
      keywords.schema = some (.declared fields) → (Entries.keys fields).Nodup) :
    Recurs (checkWithin host depth) definition := by
  induction depth generalizing definition with
  | zero => exact fun _ _ _ _ _ => .throw _
  | succ depth ih =>
    intro context world value hcollecting hplanted
    have htended : Leaves context world (checkWithin host (depth + 1) value definition) _ :=
      leaves_checkWithin host (depth + 1) hwritten
    obtain ⟨keywords, hresolve, hprepared⟩ : ∃ keywords : Node Definition,
        (∀ policy, ofForcing (resolve host policy definition) =
          (pure (policy.complete keywords) : Check σ Resolved)) ∧
        Prepared (checkWithin host depth) keywords := by
      cases hwritten with
      | shorthand type =>
        exact ⟨.ofType type, fun _ => rfl, rfl, nofun, nofun, nofun, ⟨rfl, absurd rfl, absurd rfl⟩,
          nofun⟩
      | @node keywords hcustom hfallback hdeferred hfields hitems heither =>
        have hwritten : (Definition.node keywords).Written :=
          .node hcustom hfallback hdeferred hfields hitems heither
        obtain ⟨hself, hparts⟩ := Definition.unmixed_node_iff.1 hunmixed
        exact ⟨keywords, fun _ => rfl, hcustom, hfallback, hdeferred, hnodup keywords .refl, hself,
          fun part hpart => ih (hwritten.of_mem_parts hpart) (hparts part hpart)
            fun inner hinner => hnodup inner (.of_mem_parts hpart hinner)⟩
    have hagain : Leaves context world (checkWithin host (depth + 1) value definition)
        fun result added after => after.heap.Holds result ∧
          Repeats context after.heap (checkWithin host (depth + 1) · definition) result added := by
      refine Leaves.visiting fun hfew => ?_
      have hvisited : context.visited.asserting = false := hcollecting
      refine (leaves_node hresolve hprepared hvisited hplanted).imp ?_
      rintro result added after ⟨hholds, hrepeats⟩
      exact ⟨hholds, fun later hlater => Yields.visiting hfew (hrepeats later hlater)⟩
    refine (htended.and hagain).imp ?_
    rintro result added after ⟨⟨hsize, hframe, htouchable⟩, hholds, hrepeats⟩
    exact ⟨⟨hsize, hframe, hholds, htouchable⟩, hrepeats⟩

end Check

/-- **Checking once is enough.**  The definition has been read from a document and has no
alternatives, in each of its nodes at most one keyword goes into the parts of a container
and none looks at the container before it, and the value is a tree.  If the check ends
without a fault, then the check of the value that it has returned returns this value again,
with the same violations, and leaves everything as it is. -/
theorem check_idempotent (host : Host σ) (options : Options) {json : Json}
    {definition : Definition} {value : Value} {world after : World σ} {outcome : Outcome}
    (hread : Definition.ofJson json = .ok definition) (hdistinct : json.Distinct)
    (hunmixed : definition.Unmixed) (hplanted : world.heap.Planted value)
    (hcollecting : options.assert = false)
    (hcheck : check host options value definition world = (.ok outcome, after)) :
    check host options outcome.value definition after = (.ok outcome, after) := by
  have hwritten := Definition.written_ofJson json hread
  have hrecurs := Check.recurs_checkWithin host definition.depth hwritten hunmixed
    fun keywords hpart fields => Definition.nodup_fields_of_part hread hdistinct hpart
  have hleaves := hrecurs (.start options) world value hcollecting hplanted
  rw [check_eq_outcome hwritten (Nat.le_refl _)] at hcheck ⊢
  cases hrun : checkWithin host definition.depth value definition ⟨.start options, world⟩ with
  | error fault session =>
    rw [hrun] at hcheck
    cases hcheck
  | ok result session =>
    -- The second run starts in the world that the first has left.
    obtain ⟨added, final, rfl, -, hrepeats⟩ := hleaves [] result session hrun
    rw [hrun] at hcheck
    obtain ⟨houtcome, rfl⟩ := Prod.mk.inj hcheck
    obtain rfl := Except.ok.inj houtcome
    have hagain : checkWithin host definition.depth result definition ⟨.start options, final⟩ =
        .ok result ⟨(Context.start options).holding added, final⟩ :=
      (hrepeats final (.refl _ _)).apply []
    rw [hagain]
    rfl

/-- A missing object is made and filled, one field is of the wrong type, and another is not
declared; then nothing is left to do. -/
theorem check_idempotent_filled :
    let unit : Definition := .node { fallback := some (.literal (.string "kg")) }
    let box : Definition := .node
      { fallback := some (.literal (.object [])), schema := some (.declared [("unit", unit)]) }
    let keywords : Node Definition :=
      { schema := some (.declared [("size", .shorthand .number), ("box", box)]),
        strict := some true }
    let document : Json := .object [("size", .string "big"), ("extra", .bool true)]
    let made := Run.ofHeap (Value.ofJson document) (⟨{}, ()⟩ : World Unit)
    let run := check default {} made.1 (.node keywords) made.2
    ∃ outcome, run.1 = .ok outcome ∧
      outcome.violations.map Violation.path = ["value.size", "value.extra"] ∧
      (run.2.heap.fields 0).keys = ["size", "extra", "box"] ∧
      (run.2.heap.fields 1).keys = ["unit"] ∧
      check default {} outcome.value (.node keywords) run.2 = (.ok outcome, run.2) := by
  intro unit box keywords document made run
  let json : Json := .object
    [("schema", .object
        [("size", .string "number"),
          ("box", .object
            [("default", .object []),
              ("schema", .object [("unit", .object [("default", .string "kg")])])])]),
      ("strict", .bool true)]
  have hread : Definition.ofJson json = .ok (.node keywords) := rfl
  have hdistinct : json.Distinct := by
    have hunit : Json.Distinct (.object [("default", .string "kg")]) :=
      .object (by decide) (List.forall_mem_singleton.2 (.string _))
    have hinner : Json.Distinct (.object [("unit", .object [("default", .string "kg")])]) :=
      .object (by decide) (List.forall_mem_singleton.2 hunit)
    have hbox : Json.Distinct (.object [("default", .object []),
        ("schema", .object [("unit", .object [("default", .string "kg")])])]) :=
      .object (by decide) (List.forall_mem_cons.2
        ⟨.object (by decide) (List.forall_mem_nil _), List.forall_mem_singleton.2 hinner⟩)
    exact .object (by decide) (List.forall_mem_cons.2
      ⟨.object (by decide) (List.forall_mem_cons.2 ⟨.string _, List.forall_mem_singleton.2 hbox⟩),
        List.forall_mem_singleton.2 (.bool _)⟩)
  have hunmixed : (Definition.node keywords).Unmixed := by
    have hunit : unit.Unmixed :=
      Definition.unmixed_node_iff.2 ⟨⟨rfl, absurd rfl, absurd rfl⟩, List.forall_mem_nil _⟩
    have hbox : box.Unmixed :=
      Definition.unmixed_node_iff.2 ⟨⟨rfl, absurd rfl, absurd rfl⟩,
        List.forall_mem_singleton.2 hunit⟩
    exact Definition.unmixed_node_iff.2 ⟨⟨rfl, absurd rfl, absurd rfl⟩,
      List.forall_mem_cons.2 ⟨Definition.unmixed_shorthand _, List.forall_mem_singleton.2 hbox⟩⟩
  have hplanted : made.2.heap.Planted made.1 := Heap.planted_ofJson document {}
  have hagain : ∀ outcome after, run = (.ok outcome, after) →
      check default {} outcome.value (.node keywords) after = (.ok outcome, after) :=
    fun outcome after => check_idempotent default {} hread hdistinct hunmixed hplanted rfl
  have hpaths : (run.1.map fun outcome => outcome.violations.map Violation.path).toOption =
      some ["value.size", "value.extra"] := by decide +kernel
  have hkeys : (run.2.heap.fields 0).keys = ["size", "extra", "box"] := by decide +kernel
  have hfilled : (run.2.heap.fields 1).keys = ["unit"] := by decide +kernel
  -- From here on it is the same run, whatever it comes to.
  clear_value run
  obtain ⟨fault | outcome, after⟩ := run
  · cases hpaths
  · exact ⟨outcome, rfl, Option.some.inj hpaths, hkeys, hfilled, hagain outcome after rfl⟩

end Conform
