import Conform.Proofs.JsonSchema.Agreement
import Conform.Proofs.JsonSchema.Projection
import Conform.Proofs.Definition.Parts
import Conform.Proofs.Validation.Deferral

/-!
# Schemas accept what definitions accept

What a definition demands is said in the words of JSON Schema as far as it can be; so the
schema of a definition demands no more than the definition does.  There is one exception: a
node that is strict closes its schema also where the schema does not name the properties
that there may be, and there the check complains of nothing.

## Main definitions

* `JsonSchema.Covers`: a schema that accepts all documents of which something is said.
* `Definition.Shows`: the nodes that show in the schema of a definition.
* `Node.Candid`: nodes that close their schemas only beside all that there may be.

## Main results

* `Node.allows_of_demands`: the schema of a node demands no more than the node.
* `JsonSchema.yields_outer`: the schema of a definition accepts what the definition does.
* `accepts_of_check`: it accepts all documents in which a check finds no violation.
-/

namespace Conform

variable {σ : Type}

/-! ## Nodes -/

/-- A schema accepts all documents whose values are as something says. -/
def JsonSchema.Covers (heap : Heap) (level : Ref → Nat) (P : Value → Prop) (schema : Json) : Prop :=
  ∀ json value, heap.Carries level json value → P value → accepts schema json = true

namespace Node

variable {heap : Heap} {level : Ref → Nat} {policy : Policy} {json : Json} {value : Value}
  {node : Node (Value → Prop)} {properties? : Option (Entries Json)} {items? : Option Json}

/-- **The schema of a node demands no more than the node**, if the schemas in it demand no
more than the parts, and it is closed only where it names what there may be. -/
theorem allows_of_demands (h : heap.Carries level json value)
    (hdemands : node.Demands policy heap value) (hkind : node.kind ≠ some .dateTime)
    (hproperties : ∀ schemas, properties? = some schemas → ∃ fields,
      node.schema = some (.declared fields) ∧ (∀ field ∈ fields, field.1 ∈ Entries.keys schemas) ∧
        ∀ property ∈ schemas, ∃ field ∈ fields, field.1 = property.1 ∧
          JsonSchema.Covers heap level field.2 property.2)
    (hitems : Option.Rel (JsonSchema.Covers heap level) node.items items?)
    (hclosed : node.strict = some true → (node.kind = some .object ∧ node.items ≠ none) ∨
      (∃ kind, node.kind = some kind ∧ kind ≠ .object) ∨ properties? ≠ none) :
    node.Allows properties? items? json := by
  have hobject : ∀ member ∈ json.members, ∃ ref, value = .object ref := by
    intro member hmember
    cases json with
    | object members => exact ⟨_, h.object.choose_spec.1⟩
    | _ => cases hmember
  exact
    { kind := fun kind hsome => h.allows (fun heq => hkind (heq ▸ hsome)) (hdemands.kind kind hsome)
      allowed := by
        intro documents hsome
        obtain ⟨document, hmem, hequal⟩ := hdemands.allowed documents hsome
        exact ⟨document, hmem, (h.equalsJson_eq document).symm.trans hequal⟩
      require := by
        rintro names hsome members rfl name hname
        obtain ⟨ref, rfl, -⟩ := h.object
        exact (h.fieldOf_ne_null_iff name).1 ((hdemands.require names hsome).1 ref rfl name hname)
      properties := by
        intro schemas hsome property hproperty part hpart
        obtain ⟨fields, hschema, -, hcovers⟩ := hproperties schemas hsome
        obtain ⟨field, hfield, hname, hcovers⟩ := hcovers property hproperty
        obtain ⟨ref, rfl⟩ := hobject _ (Entries.mem_of_get? hpart)
        have hmeans := ((hdemands.schema fields hschema).1 ref rfl).1 field hfield
        rw [hname] at hmeans
        exact hcovers part _ ((h.fieldOf property.1).1 part hpart) hmeans
      items := by
        rintro schema rfl hother items rfl item hitem
        generalize hsome : node.items = item? at hitems
        cases hitems with
        | @some demanded _ hcovers =>
          obtain ⟨ref, rfl, hparts⟩ := h.array
          obtain ⟨_, ⟨⟩, hall⟩ | ⟨_, ⟨⟩, -⟩ := hdemands.items demanded hsome
          obtain ⟨part, hpart, hcarries⟩ := exists_of_mem_forall₂ hparts.flip hitem
          exact hcovers item part hcarries (hall part hpart)
      entries := by
        rintro schema rfl hsame member hmember -
        generalize hsome : node.items = item? at hitems
        cases hitems with
        | @some demanded _ hcovers =>
          obtain ⟨ref, rfl⟩ := hobject member hmember
          obtain ⟨_, ⟨⟩, -⟩ | ⟨_, ⟨⟩, hall⟩ := hdemands.items demanded hsome
          obtain ⟨members, rfl, hmembers⟩ := h.exists_of_object
          obtain ⟨entry, hentry, -, hcarries⟩ := exists_of_mem_forall₂ hmembers.flip hmember
          exact hcovers member.2 entry.2 hcarries (hall entry hentry)
      closed := by
        intro hstrict hopen member hmember
        obtain ⟨ref, rfl⟩ := hobject member hmember
        rcases hclosed hstrict with ⟨hsame, hsome⟩ | ⟨kind, hsome, hother⟩ | hsome
        -- An object all of whose entries are items is not closed.
        · refine absurd ⟨?_, hsame⟩ hopen
          generalize node.items = item? at hitems hsome
          cases hitems with
          | some => rfl
          | none => exact absurd rfl hsome
        -- What is of another type has no members.
        · cases hdemands.kind kind hsome
          exact absurd rfl hother
        · obtain ⟨schemas, rfl⟩ := Option.ne_none_iff_exists'.1 hsome
          obtain ⟨fields, hschema, hkeys, -⟩ := hproperties schemas rfl
          have hdeclared := ((hdemands.schema fields hschema).1 ref rfl).2 (by rw [hstrict]; rfl)
            member.1 (h.keys_fields ▸ List.mem_map_of_mem hmember)
          obtain ⟨field, hfield, hname⟩ := List.mem_map.1 hdeclared
          exact hname ▸ hkeys field hfield
      bounds := by
        rintro bounds hsome n rfl comparator bound hbound -
        exact (hdemands.bounds bounds hsome).1 _ (h.number_iff.2 ⟨n, rfl, rfl⟩) comparator bound
          hbound }

end Node

/-! ## The nodes that show in a schema -/

/-- The nodes that show in the schema of a definition, and whether they do so inside of an
expansion: fields and items of a node, and outside of an expansion what thunks and deferred
fields are expanded to.  Alternatives do not show. -/
inductive Definition.Shows (host : Host σ) :
    Bool → Definition → Bool → Node Definition → Prop where
  | self {inside : Bool} {keywords : Node Definition} :
      Shows host inside (.node keywords) inside keywords
  | field {inside within : Bool} {keywords shown : Node Definition}
      {fields : List (String × Definition)} {field : String × Definition} :
      keywords.schema = some (.declared fields) → field ∈ fields →
      Shows host inside field.2 within shown → Shows host inside (.node keywords) within shown
  | item {inside within : Bool} {keywords shown : Node Definition} {item : Definition} :
      keywords.items = some item → Shows host inside item within shown →
      Shows host inside (.node keywords) within shown
  | produced {within : Bool} {keywords shown : Node Definition} {code : Code} {env env' : σ}
      {fields : List (String × Definition)} {field : String × Definition} :
      keywords.schema = some (.deferred code) → host.fields code env = .ok fields env' →
      field ∈ fields → Shows host true field.2 within shown →
      Shows host false (.node keywords) within shown
  | forced {within : Bool} {thunk : Thunk} {keywords shown : Node Definition} {env env' : σ} :
      (Definition.deferred thunk).unfold host maxThunkChain env = .ok keywords env' →
      Shows host true (.node keywords) within shown →
      Shows host false (.deferred thunk) within shown

/-- A node that is strict is one for objects all of whose entries are items, or for values
that are no objects, or it has fields; these may be deferred outside of an expansion, but
inside they are left open. -/
def Node.Candid (inside : Bool) (node : Node Definition) : Prop :=
  node.strict = some true → (node.kind = some .object ∧ node.items ≠ none) ∨
    (∃ kind, node.kind = some kind ∧ kind ≠ .object) ∨
    (∃ fields, node.schema = some (.declared fields)) ∨
    inside = false ∧ ∃ code, node.schema = some (.deferred code)

namespace JsonSchema

/-! ## Projections -/

section Projections

variable (host : Host σ) (env : σ) (policy : Policy) (heap : Heap) (level : Ref → Nat)

/-- A schema accepts all documents of which a definition holds, however deep it is followed. -/
def Accounts (definition : Definition) : Json → Prop :=
  Covers heap level fun value => ∃ depth, definition.Means host env policy heap depth value

variable {host env policy heap level} {inside : Bool} {keywords : Node Definition}

theorem Accounts.covers {definition : Definition} {schema : Json} {depth : Nat}
    (h : Accounts host env policy heap level definition schema) :
    Covers heap level (definition.Means host env policy heap depth) schema :=
  fun json value hcarries hmeans => h json value hcarries ⟨depth, hmeans⟩

/-- **The schema of a node** accepts what the node does, if the schemas in it accept what the
parts do.  Only inside of an expansion may there be no schemas for fields that are deferred. -/
theorem accounts_schemaMembers {properties? : Option (Entries Json)} {items? : Option Json}
    (hkind : keywords.kind ≠ some .dateTime) (hcandid : keywords.Candid inside)
    (hopen : properties? = none → (∀ fields, keywords.schema ≠ some (.declared fields)) ∧
      (inside = false → ∀ code, keywords.schema ≠ some (.deferred code)))
    (hproperties : ∀ schemas, properties? = some schemas → keywords.schema ≠ none ∧
      ∃ parts, Entries.Alongside (Accounts host env policy heap level)
        (keywords.produced host env) parts ∧ schemas = Entries.collect parts)
    (hitems : Option.Rel (Accounts host env policy heap level) keywords.items items?) :
    Accounts host env policy heap level (.node keywords)
      (.object (keywords.schemaMembers properties? items?)) := by
  rintro json value hcarries ⟨_ | depth, hmeans⟩
  · cases hmeans
  obtain ⟨_, ⟨⟩, hconforms⟩ := hmeans
  let node := (keywords.spelled (keywords.produced host env)).map
    (Definition.Means host env policy heap depth)
  have hallows : node.Allows properties? items? json := by
    refine Node.allows_of_demands hcarries (hconforms.2 hcarries.ne_null) hkind ?_ ?_
      fun hstrict => ?_
    · intro schemas hsome
      obtain ⟨hschema, parts, hparts, rfl⟩ := hproperties schemas hsome
      obtain ⟨written, hwritten⟩ := Option.ne_none_iff_exists'.1 hschema
      refine ⟨(keywords.produced host env).map fun field =>
        (field.1, field.2.Means host env policy heap depth), ?_, ?_, fun property hproperty => ?_⟩
      · simp only [node, Node.map, Node.spelled, hwritten, Option.map_some, Fields.map]
      · refine List.forall_mem_map.2 fun field hfield => ?_
        rw [Entries.mem_keys_collect_iff, ← hparts.keys_eq]
        exact List.mem_map_of_mem hfield
      · obtain ⟨field, hfield, hname, haccounts⟩ :=
          exists_of_mem_forall₂ hparts (Entries.mem_of_mem_collect hproperty)
        exact ⟨_, List.mem_map_of_mem hfield, hname, haccounts.covers⟩
    · change Option.Rel _ (keywords.items.map _) items?
      generalize keywords.items = item? at hitems
      cases hitems with
      | some haccounts => exact .some haccounts.covers
      | none => exact .none
    · obtain ⟨hobject, hsome⟩ | hother | ⟨fields, hfields⟩ | ⟨hout, code, hlazy⟩ :=
        hcandid hstrict
      · exact .inl ⟨hobject, fun hnone => hsome (Option.map_eq_none_iff.1 hnone)⟩
      · exact .inr (.inl hother)
      · exact .inr (.inr fun hnone => (hopen hnone).1 fields hfields)
      · exact .inr (.inr fun hnone => (hopen hnone).2 hout code hlazy)
  exact Node.accepts_schemaMembers_iff.2 ⟨hallows.kind, hallows.allowed, hallows.require,
    hallows.properties, hallows.items, hallows.entries, hallows.closed, hallows.bounds⟩

/-- What is said of a value by a definition is said by the node that it unfolds to. -/
theorem Accounts.of_unfold {definition : Definition} {schema : Json}
    (h : Accounts host env policy heap level (.node keywords) schema)
    (hunfold : (definition.unfold host maxThunkChain).outcome env = .ok keywords) :
    Accounts host env policy heap level definition schema := by
  rintro json value hcarries ⟨_ | depth, hmeans⟩
  · cases hmeans
  obtain ⟨_, hsome, hconforms⟩ := hmeans
  obtain rfl := Except.ok.inj (hunfold.symm.trans hsome)
  exact h json value hcarries ⟨depth + 1, keywords, rfl, hconforms⟩

/-! ## The layers of a projection -/

variable {content project : Definition → Projection σ Json}

/-- **The schema of a node** accepts what the node does, if those of its parts and of what is
expanded in it do. -/
theorem yields_node
    (hgood : Definition.Throughout host (fun d => d.Repeatable host ∧ d.Inert) (.node keywords))
    (hcandid : keywords.Candid inside)
    (hfields : ∀ fields, keywords.schema = some (.declared fields) → ∀ field ∈ fields,
      (project field.2).Yields inside (Accounts host env policy heap level field.2))
    (hcontent : inside = false → ∀ code, keywords.schema = some (.deferred code) →
      ∀ env₁ fields env₂, host.fields code env₁ = .ok fields env₂ → ∀ field ∈ fields,
        (content field.2).Yields true (Accounts host env policy heap level field.2))
    (hitems : ∀ item, keywords.items = some item →
      (project item).Yields inside (Accounts host env policy heap level item)) :
    (ofNode (expandedFields host content) (keywords.map project)).Yields inside
      (Accounts host env policy heap level (.node keywords)) := by
  obtain ⟨hrepeatable, -, hkind⟩ := hgood.self
  let expanded (code : Code) (properties? : Option (Entries Json)) : Prop :=
    properties? = none ∧ inside = true ∨
      ∃ parts, Entries.Alongside (Accounts host env policy heap level)
        (keywords.produced host env) parts ∧ properties? = some (Entries.collect parts)
  have hexpanded : ∀ code, keywords.schema = some (.deferred code) →
      (expandedFields host content code).Yields inside fun json? =>
        ∃ properties?, expanded code properties? ∧ json? = properties?.map .object := by
    intro code hschema
    refine .expanding (fun hinside => ⟨none, .inl ⟨rfl, hinside⟩, rfl⟩) fun houtside => ?_
    refine (Projection.Yields.ofForcing (Q := fun fields =>
      fields = keywords.produced host env ∧ ∀ field ∈ fields,
        (content field.2).Yields true (Accounts host env policy heap level field.2))
      fun env₁ fields env₂ hok => ⟨?_, hcontent houtside code hschema env₁ fields env₂ hok⟩).bind
      fun fields hfields => ?_
    · -- What is produced now would have been produced in the given state.
      have hsteady := hrepeatable.steady _ hschema env env₁
      have hthen : (host.fields code).outcome env = .ok fields :=
        hsteady.trans (Forcing.outcome_eq_ok.2 ⟨env₂, hok⟩)
      simp only [Node.produced, hschema, Fields.resolve, hthen, Except.toOption, Option.getD_some]
    · obtain ⟨hproduced, hparts⟩ := hfields
      refine (Projection.Yields.properties hparts).map fun json hjson => ?_
      obtain ⟨parts, halongside, rfl⟩ := hjson
      exact ⟨some (Entries.collect parts), .inr ⟨parts, hproduced ▸ halongside, rfl⟩, rfl⟩
  refine (Projection.Yields.ofNode hfields hexpanded hitems).imp ?_
  rintro json ⟨properties?, items?, hnone, hdeclared, hdeferred, hitem, rfl⟩
  refine accounts_schemaMembers hkind hcandid ?_ ?_ hitem
  · rintro rfl
    refine ⟨fun fields hschema => ?_, fun houtside code hschema => ?_⟩
    · obtain ⟨_, -, ⟨⟩⟩ := hdeclared fields hschema
    · obtain ⟨-, hinside⟩ | ⟨_, -, ⟨⟩⟩ := hdeferred code hschema
      rw [houtside] at hinside
      cases hinside
  · rintro schemas rfl
    rcases hschema : keywords.schema with _ | (fields | code)
    · cases hnone hschema
    · obtain ⟨parts, halongside, hsome⟩ := hdeclared fields hschema
      have hproduced : keywords.produced host env = fields := by
        rw [Node.produced, hschema]
        rfl
      exact ⟨Option.some_ne_none _, parts, hproduced ▸ halongside, Option.some.inj hsome⟩
    · obtain ⟨⟨⟩, -⟩ | ⟨parts, halongside, hsome⟩ := hdeferred code hschema
      exact ⟨Option.some_ne_none _, parts, halongside, Option.some.inj hsome⟩

/-- **A layer of a projection** accepts what the definition does, if the contents of what it
expands do. -/
theorem yields_layer {definition : Definition}
    (hcontent : inside = false → ∀ d,
      d.Throughout host (fun d => d.Repeatable host ∧ d.Inert) →
      (∀ within shown, d.Shows host true within shown → shown.Candid within) →
      (content d).Yields true (Accounts host env policy heap level d))
    (hgood : definition.Throughout host fun d => d.Repeatable host ∧ d.Inert)
    (hcandid : ∀ within shown, definition.Shows host inside within shown → shown.Candid within) :
    (layer host content definition).Yields inside
      (Accounts host env policy heap level definition) := by
  induction definition with
  | shorthand type =>
    have htype : (ofNode (expandedFields host content)
        ((Node.ofType type : Node Definition).map (layer host content))).Yields inside
        (Accounts host env policy heap level (.node (.ofType type))) :=
      yields_node (hgood.of_met (.shorthand .refl)) nofun nofun (fun _ => nofun) nofun
    exact htype.imp fun schema h => h.of_unfold rfl
  | deferred thunk =>
    have hsteady : ((Definition.deferred thunk).unfold host maxThunkChain).Steady :=
      Definition.steady_unfold (hgood.imp fun _ h => h.1.steady) maxThunkChain
    refine .expanding (fun _ json value _ _ => ?_) fun houtside => ?_
    · rfl
    refine (Projection.Yields.ofForcing (Q := fun resolved =>
      (content (.node resolved.node)).Yields true
        (Accounts host env policy heap level (.deferred thunk))) ?_).bind fun resolved h => h
    intro env₁ resolved env₂ hresolve
    obtain ⟨keywords, hok, rfl⟩ := Definition.unfold_of_resolve hresolve
    refine (hcontent houtside (.node keywords) (hgood.of_met (Definition.met_unfold hok))
      fun within shown hshown => hcandid within shown ?_).imp fun schema h => h.of_unfold ?_
    · subst houtside
      exact .forced hok hshown
    · rw [hsteady env env₁]
      exact Forcing.outcome_eq_ok.2 ⟨env₂, hok⟩
  | node keywords ih =>
    rw [layer_node]
    refine yields_node hgood (hcandid inside keywords .self) (fun fields hschema field hfield => ?_)
      (fun houtside code hschema env₁ fields env₂ hok field hfield => ?_) fun item hitems => ?_
    · have hresolve : (Fields.declared fields).resolve host env = .ok fields env := rfl
      exact ih _ (Node.mem_parts_of_field hschema hfield)
        (hgood.of_met (.field .refl hschema hresolve hfield))
        fun within shown hshown => hcandid within shown (.field hschema hfield hshown)
    · refine hcontent houtside field.2 (hgood.of_met (.field .refl hschema hok hfield))
        fun within shown hshown => hcandid within shown ?_
      subst houtside
      exact .produced hschema hok hfield hshown
    · exact ih _ (Node.mem_parts_of_item hitems) (hgood.of_met (.item .refl hitems))
        fun within shown hshown => hcandid within shown (.item hitems hshown)

/-- **The schema of a definition** accepts what the definition does. -/
theorem yields_outer {definition : Definition}
    (hgood : definition.Throughout host fun d => d.Repeatable host ∧ d.Inert)
    (hcandid : ∀ within shown, definition.Shows host false within shown → shown.Candid within) :
    (outer host definition).Yields false (Accounts host env policy heap level definition) :=
  yields_layer (fun _ _ hgood hcandid => yields_layer nofun hgood hcandid) hgood hcandid

end Projections

end JsonSchema

/-- **Schemas accept what definitions accept.**  Of a definition whose deferred parts are the
same each time that they are produced, and that has no defaults, transforms and dates, the
schema accepts all documents without nulls in which a check finds no violation, if nodes that
show in the schema close it only where all that there may be shows in it. -/
theorem accepts_of_check (host : Host σ) (options : Options) {definition : Definition}
    (hgood : definition.Throughout host fun d => d.Repeatable host ∧ d.Inert)
    (hcandid : ∀ within shown, definition.Shows host false within shown → shown.Candid within)
    {document : Json} (hdistinct : document.Distinct) (hnonnull : document.Nonnull)
    {value : Value} {world filled after : World σ}
    (hmade : Run.ofHeap (Value.ofJson document) world = (value, filled)) {outcome : Outcome}
    (hcheck : check host options value definition filled = (.ok outcome, after))
    (hvalid : outcome.violations = []) {env env' : σ} {schema : Json}
    (hproject : definition.project host env = .ok schema env') :
    JsonSchema.accepts schema document = true := by
  have hcarries := Heap.Carries.of_made hdistinct hnonnull hmade
  -- What the check finds is what the definition means.
  have hmeans : ∃ depth, definition.Means host env options.policy filled.heap depth value := by
    have hclear := Context.Clear.start options hcarries.denotes.holds hcarries.denotes.acyclic
    have hdecides := Check.decides_means env (nestingBound filled.heap definition) _ value
      definition hclear hgood
    exact ⟨_, (hdecides.violations_eq_nil_iff hcheck).1 hvalid⟩
  cases hschema : JsonSchema.outer host definition { env } with
  | error fault state =>
    unfold Definition.project at hproject
    rw [hschema] at hproject
    cases hproject
  | ok json state =>
    unfold Definition.project at hproject
    rw [hschema] at hproject
    cases hproject
    exact (JsonSchema.yields_outer hgood hcandid _ _ _ rfl hschema).2 document value hcarries hmeans

/-- The schema of a list, the rest of which is deferred, accepts a list of two strings. -/
theorem accepts_of_check_list :
    let list : Node Definition :=
      { kind := some .object, required := some false, strict := some true,
        schema := some (.deferred 0) }
    let host : Host Unit :=
      { (default : Host Unit) with
        force := fun _ => pure (.node list)
        fields := fun _ => pure [("value", .shorthand .string), ("rest", .deferred (.host 0))] }
    let document : Json :=
      .object [("value", .string "a"), ("rest", .object [("value", .string "b")])]
    let made := Run.ofHeap (Value.ofJson document) ⟨{}, ()⟩
    ∃ outcome after schema, check host {} made.1 (.node list) made.2 = (.ok outcome, after) ∧
      outcome.violations = [] ∧ (Definition.node list).project host () = .ok schema () ∧
        JsonSchema.accepts schema document = true := by
  intro list host
  have hmet : ∀ met, Definition.Met host (.node list) met →
      met = .node list ∨ met = .deferred (.host 0) ∨ met = .shorthand .string ∨
        met = .node (.ofType .string) := by
    intro met h
    induction h with
    | refl => exact .inl rfl
    | shorthand _ ih =>
      rcases ih with h | h | h | h <;> cases h
      exact .inr (.inr (.inr rfl))
    | forced _ hforce ih =>
      rcases ih with h | h | h | h <;> cases h
      cases hforce
      exact .inl rfl
    | field _ hschema hresolve hfield ih =>
      rcases ih with h | h | h | h <;> cases h <;> cases hschema
      cases hresolve
      rcases List.mem_cons.1 hfield with rfl | hfield
      · exact .inr (.inr (.inl rfl))
      · obtain rfl := List.mem_singleton.1 hfield
        exact .inr (.inl rfl)
    | item _ hitems ih => rcases ih with h | h | h | h <;> cases h <;> cases hitems
    | alternative _ heither _ ih => rcases ih with h | h | h | h <;> cases h <;> cases heither
  have hgood : (Definition.node list).Throughout host fun d => d.Repeatable host ∧ d.Inert := by
    intro met h
    rcases hmet met h with rfl | rfl | rfl | rfl
    · refine ⟨⟨?_, ?_, ?_⟩, rfl, nofun⟩
      · rintro _ ⟨⟩
        exact Forcing.steady_pure _
      · rintro _ ⟨⟩; rfl
      · rintro _ _ ⟨⟩; nofun
    · refine ⟨⟨fun _ _ => rfl, ?_, ?_⟩, trivial⟩
      · rintro _ ⟨⟩
      · rintro _ _ ⟨⟩
    · exact ⟨(Definition.Written.shorthand _).repeatable host, nofun⟩
    · exact ⟨(Definition.Written.shorthand _).throughout host _ (.shorthand .refl), rfl, nofun⟩
  have hcandid : ∀ within shown, (Definition.node list).Shows host false within shown →
      shown.Candid within := by
    intro within shown hshows
    cases hshows with
    | self => exact fun _ => .inr (.inr (.inr ⟨rfl, 0, rfl⟩))
    | field hschema => cases hschema
    | item hitems => cases hitems
    | produced hschema hok hfield hshows =>
      cases hschema
      cases hok
      rcases List.mem_cons.1 hfield with rfl | hfield
      · cases hshows
      · obtain rfl := List.mem_singleton.1 hfield
        cases hshows
  intro document made
  have hdistinct : document.Distinct :=
    .object (by decide) (List.forall_mem_cons.2 ⟨.string _, List.forall_mem_singleton.2
      (.object (by decide) (List.forall_mem_singleton.2 (.string _)))⟩)
  have hstring : ∀ a, (Json.string a).Nonnull := fun a => ⟨nofun, nofun⟩
  have hnonnull : document.Nonnull :=
    ⟨nofun, List.forall_mem_cons.2 ⟨hstring _, List.forall_mem_singleton.2
      ⟨nofun, List.forall_mem_singleton.2 (hstring _)⟩⟩⟩
  have hvalid : ((check host {} made.1 (.node list) made.2).1.map Outcome.isValid).toOption =
      some true := by
    decide +kernel
  obtain ⟨schema, hproject⟩ : ∃ schema, (Definition.node list).project host () = .ok schema () :=
    ⟨_, rfl⟩
  cases hrun : check host {} made.1 (.node list) made.2 with
  | mk result after =>
    rw [hrun] at hvalid
    cases result with
    | error fault => cases hvalid
    | ok outcome =>
      have hnone : outcome.violations = [] := List.isEmpty_iff.1 (Option.some.inj hvalid)
      exact ⟨outcome, after, schema, rfl, hnone, hproject,
        accepts_of_check host {} hgood hcandid hdistinct hnonnull rfl hrun hnone hproject⟩

/-- A strict object that declares no fields may have any, but its schema is closed; and a thunk
may yield one definition for the check and another for the schema. -/
theorem not_accepts_of_check :
    (let definition : Definition := .node { kind := some .object, strict := some true }
     let document : Json := .object [("a", .bool true)]
     let made := Run.ofHeap (Value.ofJson document) (⟨{}, ()⟩ : World Unit)
     let schema : Json :=
       .object [("type", .string "object"), ("additionalProperties", .bool false)]
     ((check default {} made.1 definition made.2).1.map Outcome.isValid).toOption = some true ∧
       definition.project (default : Host Unit) () = .ok schema () ∧
       JsonSchema.accepts schema document = false) ∧
    (let host : Host Nat :=
       { (default : Host Nat) with
         force := fun _ count =>
           .ok (.shorthand (if count = 0 then .string else .number)) (count + 1) }
     let definition : Definition := .deferred (.host 0)
     let made := Run.ofHeap (Value.ofJson (.string "a")) (⟨{}, 0⟩ : World Nat)
     let run := check host {} made.1 definition made.2
     let schema : Json := .object [("type", .string "number")]
     (run.1.map Outcome.isValid).toOption = some true ∧
       definition.project host run.2.env = .ok schema 2 ∧
       JsonSchema.accepts schema (.string "a") = false) := by
  refine ⟨⟨by decide +kernel, rfl, by decide +kernel⟩, ?_⟩
  intro host definition made run schema
  have henv : run.2.env = 1 := by decide +kernel
  refine ⟨by decide +kernel, ?_, by decide +kernel⟩
  rw [henv]
  rfl

end Conform
