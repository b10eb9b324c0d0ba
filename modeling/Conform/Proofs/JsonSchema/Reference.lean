import Conform.Proofs.Definition.Parts
import Conform.Proofs.JsonSchema.Projection

/-!
# Projection without a flag

A projection keeps in its state whether a deferred part is being expanded: the flag is set
on the way into a deferred part and cleared on the way out.  The same schemas come of a
recursion without such a state, which is told with every definition whether it stands inside
of an expansion, and tells its parts.  So the schema of a part does not depend on what has
been projected before it.

The recursion expands nothing inside of an expansion, and for this reason it ends: each step
either goes from the outside to the inside or from a node to a part of it.

## Main definitions

* `JsonSchema.schemaAt`: the recursion.
* `JsonSchema.Projection.AmountsTo`: a part of a projection that has no need of the flag.

## Main results

* `JsonSchema.Projection.AmountsTo.layer`: a layer amounts to the recursion, if what it
  expands does.
* `JsonSchema.project_eq_schemaAt`: so does the projection of a definition.
-/

namespace Conform

namespace JsonSchema

variable {σ α β δ : Type}

/-! ## The recursion -/

/-- The schemas of fields; a repeated field keeps its place and takes the later schema. -/
def collectAt (fields : List (String × Forcing σ Json)) : Forcing σ (Entries Json) := do
  return Entries.collect (← fields.mapM fun field => return (field.1, ← field.2))

/-- The schema of a definition that stands inside of an expansion, or outside: a deferred
part is left open inside, and outside its content is inside. -/
def schemaAt (host : Host σ) : Bool → Definition → Forcing σ Json
  | _, .shorthand type =>
    return .object ((Node.ofType type : Node Definition).schemaMembers none none)
  | inside, .deferred thunk =>
    if inside then return anything
    else do
      let resolved ← resolve host {} (.deferred thunk)
      schemaAt host true (.node resolved.node)
  | inside, .node keywords => do
    let properties? ← (match _ : keywords.schema with
      | none => return none
      | some (.declared fields) =>
        some <$> collectAt (fields.map fun field => (field.1, schemaAt host inside field.2))
      | some (.deferred code) =>
        if inside then return none
        else do
          let fields ← host.fields code
          some <$> collectAt (fields.map fun field => (field.1, schemaAt host true field.2)))
    let items? ← (match _ : keywords.items with
      | none => return none
      | some item => some <$> schemaAt host inside item)
    return .object (keywords.schemaMembers properties? items?)
termination_by inside definition => (if inside then 0 else 1, definition.depth)
decreasing_by
  -- An expansion goes from the outside to the inside, and all other steps go to a part.
  · exact .left _ _ (by simp [*])
  · exact .right _ (Definition.depth_lt_of_mem_parts (Node.mem_parts_of_field ‹_› ‹_›))
  · exact .left _ _ (by simp [*])
  · exact .right _ (Definition.depth_lt_of_mem_parts (Node.mem_parts_of_item ‹_›))

/-! ## Projections that have no need of the flag -/

/-- Inside of an expansion or outside, a part of a projection does what a computation does
that does not know the flag, and the flag is the same in the end, also after a fault. -/
def Projection.AmountsTo (inside : Bool) (m : Projection σ α) (f : Forcing σ α) : Prop :=
  ∀ state, state.expanding = inside → m state = ofForcing f state

namespace Projection.AmountsTo

variable {inside : Bool}

theorem pure (a : α) : AmountsTo inside (pure a : Projection σ α) (pure a) := fun _ _ => rfl

theorem ofForcing (f : Forcing σ α) : AmountsTo inside (ofForcing f) f := fun _ _ => rfl

/-- **Steps in sequence**, where the computation may have the first result in another form. -/
theorem bind_map {γ : Type} {m : Projection σ α} {f : Forcing σ γ} {g : γ → α}
    {next : α → Projection σ β} {next' : γ → Forcing σ β} (hm : AmountsTo inside m (g <$> f))
    (hnext : ∀ c, AmountsTo inside (next (g c)) (next' c)) :
    AmountsTo inside (m >>= next) (f >>= next') := by
  intro state hinside
  have hfirst := hm state hinside
  simp only [Functor.map, EStateM.map, JsonSchema.ofForcing] at hfirst
  simp only [Bind.bind, EStateM.bind, hfirst, JsonSchema.ofForcing]
  cases f state.env with
  | ok c env => exact hnext c ⟨state.expanding, env⟩ hinside
  | error fault env => rfl

theorem bind {m : Projection σ α} {f : Forcing σ α} {next : α → Projection σ β}
    {next' : α → Forcing σ β} (hm : AmountsTo inside m f)
    (hnext : ∀ a, AmountsTo inside (next a) (next' a)) :
    AmountsTo inside (m >>= next) (f >>= next') :=
  bind_map (g := id) (by rwa [id_map]) hnext

theorem map {m : Projection σ α} {f : Forcing σ α} (g : α → β) (hm : AmountsTo inside m f) :
    AmountsTo inside (g <$> m) (g <$> f) := by
  rw [map_eq_pure_bind, map_eq_pure_bind]
  exact hm.bind fun a => .pure (g a)

/-- **A deferred part** needs the flag only to tell whether it is inside. -/
theorem expanding {leftOpen : α} {m : Projection σ α} {f : Forcing σ α}
    (hm : inside = false → AmountsTo true m f) :
    AmountsTo inside (expanding leftOpen m) (if inside then return leftOpen else f) := by
  rintro ⟨flag, env⟩ rfl
  cases flag with
  | true => rfl
  | false =>
    -- The flag that is put down on the way out was down on the way in.
    have hinside := hm rfl ⟨true, env⟩ rfl
    simp only [JsonSchema.expanding, hinside, JsonSchema.ofForcing, Bool.false_eq_true, if_false]
    cases f env <;> rfl

theorem mapM {m : δ → Projection σ α} {f : δ → Forcing σ α} {xs : List δ}
    (h : ∀ x ∈ xs, AmountsTo inside (m x) (f x)) : AmountsTo inside (xs.mapM m) (xs.mapM f) := by
  induction xs with
  | nil => exact .pure []
  | cons x xs ih =>
    obtain ⟨hfirst, hrest⟩ := List.forall_mem_cons.1 h
    rw [List.mapM_cons, List.mapM_cons]
    exact hfirst.bind fun a => (ih hrest).bind fun as => .pure (a :: as)

/-- **The schemas of fields** one after the other, in an object. -/
theorem properties {fields : List (String × δ)} {project : δ → Projection σ Json}
    {schema : δ → Forcing σ Json}
    (h : ∀ field ∈ fields, AmountsTo inside (project field.2) (schema field.2)) :
    AmountsTo inside
      (some <$> JsonSchema.properties (fields.map fun field => (field.1, project field.2)))
      (Option.map Json.object <$> some <$>
        collectAt (fields.map fun field => (field.1, schema field.2))) := by
  have hentries : AmountsTo inside (fields.mapM fun field => return (field.1, ← project field.2))
      (fields.mapM fun field => return (field.1, ← schema field.2)) :=
    mapM fun field hfield => (h field hfield).bind fun json => .pure (field.1, json)
  have hobject : AmountsTo inside
      (JsonSchema.properties (fields.map fun field => (field.1, project field.2)))
      (Json.object <$> collectAt (fields.map fun field => (field.1, schema field.2))) := by
    rw [JsonSchema.properties, collectAt, List.mapM_map, List.mapM_map, map_bind]
    exact hentries.bind fun entries => .pure (Json.object (Entries.collect entries))
  simpa only [Functor.map_map, Option.map_some] using hobject.map some

/-- **The schema of a node** amounts to what the recursion makes of it, if those of its parts
and of the fields that are expanded do. -/
theorem node {host : Host σ} {content project : Definition → Projection σ Json}
    {keywords : Node Definition}
    (hcontent : inside = false → ∀ d, AmountsTo true (content d) (schemaAt host true d))
    (hparts : ∀ part ∈ keywords.parts, AmountsTo inside (project part) (schemaAt host inside part)) :
    AmountsTo inside (ofNode (expandedFields host content) (keywords.map project))
      (schemaAt host inside (.node keywords)) := by
  -- The projection has the schemas of the fields as an object, the recursion as a list.
  rw [ofNode_eq, schemaAt]
  refine bind_map (g := Option.map Json.object) ?fields fun properties? =>
    bind ?items fun items? => ?members
  case fields =>
    split
    · next hschema =>
      simp only [Node.map, hschema, Option.map_none, fieldSchemas]
      exact .pure none
    · next fields hschema =>
      simp only [Node.map, hschema, Option.map_some, Fields.map, fieldSchemas]
      exact properties fun field hfield =>
        hparts field.2 (Node.mem_parts_of_field hschema hfield)
    · next code hschema =>
      simp only [Node.map, hschema, Option.map_some, Fields.map, fieldSchemas]
      rw [apply_ite (Option.map Json.object <$> ·), map_pure, map_bind]
      exact expanding fun houtside => (ofForcing _).bind fun fields =>
        properties fun field _ => hcontent houtside field.2
  case items =>
    split
    · next hitems =>
      simp only [Node.map, hitems, Option.map_none, itemSchema]
      exact .pure none
    · next item hitems =>
      simp only [Node.map, hitems, Option.map_some, itemSchema]
      exact .map some (hparts item (Node.mem_parts_of_item hitems))
  case members =>
    cases properties? <;> exact .pure _

/-- **A layer of a projection** amounts to the recursion, if the contents of what it expands
do.  Inside of an expansion it expands nothing. -/
theorem layer {host : Host σ} {content : Definition → Projection σ Json}
    (hcontent : inside = false → ∀ d, AmountsTo true (content d) (schemaAt host true d))
    (definition : Definition) :
    AmountsTo inside (layer host content definition) (schemaAt host inside definition) := by
  induction definition with
  | shorthand type =>
    rw [schemaAt]
    exact .pure _
  | deferred thunk =>
    rw [schemaAt]
    exact expanding fun houtside => (ofForcing _).bind fun resolved => hcontent houtside _
  | node keywords ih =>
    rw [layer_node]
    exact node hcontent ih

end Projection.AmountsTo

/-- Two layers are enough: whatever the inner one would expand is left open. -/
theorem layer_layer (host : Host σ) (content : Definition → Projection σ Json)
    (definition : Definition) (state : State σ) :
    layer host (layer host content) definition state =
      ofForcing (schemaAt host state.expanding definition) state :=
  Projection.AmountsTo.layer (fun _ => .layer nofun) definition state rfl

/-- **The projection of a definition is that of the recursion.**  Wherever the projector
stands, it does what the recursion does there, and of definitions that it projects one after
the other each comes to what it comes to by itself.  A projector that calls itself on what
it expands is this one and no other; and what is called inside of two expansions does not
matter, since nothing ever is. -/
theorem project_eq_schemaAt (host : Host σ) :
    (∀ definition : Definition, definition.project host = schemaAt host false definition) ∧
    (∀ definition state, outer host definition state =
      ofForcing (schemaAt host state.expanding definition) state) ∧
    (∀ (definitions : List Definition) (state : State σ),
      definitions.mapM (outer host) state =
        ofForcing (definitions.mapM (schemaAt host state.expanding)) state) ∧
    (∀ projector, layer host projector = projector ↔ projector = outer host) ∧
    ∀ content, layer host (layer host content) = outer host := by
  have houter : ∀ definition state, outer host definition state =
      ofForcing (schemaAt host state.expanding definition) state := layer_layer host _
  have htwice : ∀ content, layer host (layer host content) = outer host := by
    intro content
    funext definition state
    rw [houter, layer_layer]
  refine ⟨fun definition => ?_, houter, fun definitions state => ?_, fun projector => ?_, htwice⟩
  · funext env
    rw [Definition.project, houter, ofForcing]
    cases schemaAt host false definition env <;> rfl
  · refine Projection.AmountsTo.mapM (fun definition _ => ?_) state rfl
    intro later hflag
    rw [houter, hflag]
  · constructor
    · -- Whatever solves the equation may be put in its own place twice.
      intro hself
      rw [← htwice projector, hself, hself]
    · rintro rfl
      exact htwice (inner host)

/-- An array of arrays of its own kind, which the host produces: the outer one is expanded. -/
example :
    let host : Host Unit :=
      { (default : Host Unit) with
        force := fun _ => pure (.node { kind := some .array, items := some (.deferred (.host 0)) }) }
    (Definition.deferred (.host 0)).project host () =
      .ok (.object [("type", .string "array"), ("items", .object [])]) () := by
  rfl

end JsonSchema

end Conform
