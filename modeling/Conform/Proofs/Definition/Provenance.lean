import Conform.Proofs.Definition.Conforms
import Conform.Proofs.Definition.Parts
import Conform.Proofs.Definition.Readable

/-!
# Where the parts of a definition come from

A definition that has been read stands at a place of the document, and so does each of its
parts.  What is asked of the document as a whole, such as that no object names a member
twice, then holds at the place that a part was read from.

## Main definitions

* `Node.Reads`: what one member of an object does to a node that is being read.
* `Definition.Regular`: nodes that declare no field twice and have finite bounds.

## Main results

* `Definition.exists_reads_of_cons`: an object is read member by member.
* `Definition.exists_position_of_part`: every part was read from a place of the document.
* `Definition.regular_ofJson`: all parts of a definition that has been read are regular.
-/

namespace Conform

variable {node next result : Node Definition} {definition part : Definition}

/-- What one member of an object does to the parts and the bounds of a node: it sets one of
them, or none. -/
inductive Node.Reads (node : Node Definition) (argument : Json) :
    Keyword → Node Definition → Prop where
  | schema {keyword : Keyword} {fields : List (String × Definition)} :
      keyword = .schema ∨ keyword = .properties →
      Definition.fieldsOfJson keyword.text argument = .ok fields →
      Reads node argument keyword { node with schema := some (.declared fields) }
  | items {item : Definition} : Definition.ofJson argument = .ok item →
      Reads node argument .items { node with items := some item }
  | bounds {bounds : Bounds} :
      Definition.boundsArgument Keyword.bounds.text argument = .ok bounds →
      Reads node argument .bounds { node with bounds := some bounds }
  | either {alternatives : List Definition} :
      Definition.alternativesOfJson Keyword.either.text argument = .ok alternatives →
      Reads node argument .either { node with either := some alternatives }
  | other {keyword : Keyword} {next : Node Definition} : next.schema = node.schema →
      next.items = node.items → next.bounds = node.bounds → next.either = node.either →
      Reads node argument keyword next

namespace Definition

/-! ## Member by member -/

/-- Nodes are read from objects. -/
theorem exists_members_of_ofJson {json : Json} (h : ofJson json = .ok (.node node)) :
    ∃ members, json = .object members ∧ nodeOfMembers {} members = .ok node := by
  cases json with
  | string name =>
    rw [ofJson] at h
    obtain ⟨type, -, htype⟩ := bind_eq_ok h
    cases htype
  | object members =>
    rw [ofJson] at h
    obtain ⟨_, hread, hnode⟩ := bind_eq_ok h
    cases hnode
    exact ⟨members, rfl, hread⟩
  | _ => simp [ofJson] at h

/-- **An object is read member by member.** -/
theorem exists_reads_of_cons {name : String} {argument : Json} {rest : List (String × Json)}
    (h : nodeOfMembers node ((name, argument) :: rest) = .ok result) :
    ∃ (keyword : Keyword) (next : Node Definition), name = keyword.text ∧
      node.Reads argument keyword next ∧ nodeOfMembers next rest = .ok result := by
  rw [nodeOfMembers] at h
  cases hkeyword : Keyword.ofText? name with
  | none => rw [hkeyword] at h; cases h
  | some keyword =>
    rw [hkeyword] at h
    obtain rfl := Keyword.ofText?_eq_some_iff.1 hkeyword
    have hnext : ∀ {next : Node Definition}, nodeOfMembers next rest = .ok result →
        node.Reads argument keyword next → ∃ (other : Keyword) (next : Node Definition),
          keyword.text = other.text ∧ node.Reads argument other next ∧
            nodeOfMembers next rest = .ok result :=
      fun hrest hreads => ⟨keyword, _, rfl, hreads, hrest⟩
    -- Most keywords leave alone what parts and bounds are made of.
    cases keyword with
    | optional | required | strict | type | require | restrict =>
      obtain ⟨_, -, h⟩ := bind_eq_ok h
      refine hnext h ?_
      exact .other rfl rfl rfl rfl
    | default =>
      refine hnext h ?_
      exact .other rfl rfl rfl rfl
    | oneOf | enumeration =>
      simp only at h
      split at h
      · cases h
      · obtain ⟨_, -, h⟩ := bind_eq_ok h
        refine hnext h ?_
        exact .other rfl rfl rfl rfl
    | schema =>
      simp only at h
      split at h
      · cases h
      · obtain ⟨fields, hfields, h⟩ := bind_eq_ok h
        refine hnext h ?_
        exact .schema (.inl rfl) hfields
    | properties =>
      simp only at h
      split at h
      · cases h
      · obtain ⟨fields, hfields, h⟩ := bind_eq_ok h
        refine hnext h ?_
        exact .schema (.inr rfl) hfields
    | items =>
      obtain ⟨item, hitem, h⟩ := bind_eq_ok h
      refine hnext h ?_
      exact .items hitem
    | bounds =>
      obtain ⟨bounds, hbounds, h⟩ := bind_eq_ok h
      refine hnext h ?_
      exact .bounds hbounds
    | either =>
      obtain ⟨alternatives, halternatives, h⟩ := bind_eq_ok h
      refine hnext h ?_
      exact .either halternatives
    | custom => cases h

/-- **What members set.**  A property of nodes that every member keeps is had by the node
that is read from them all. -/
theorem nodeOfMembers_induct {P : Node Definition → Prop} {members : List (String × Json)}
    (hreads : ∀ (keyword : Keyword) argument node next, (keyword.text, argument) ∈ members →
      node.Reads argument keyword next → P node → P next)
    (h : nodeOfMembers node members = .ok result) (hnode : P node) : P result := by
  induction members generalizing node with
  | nil =>
    rw [nodeOfMembers] at h
    cases h
    exact hnode
  | cons member rest ih =>
    obtain ⟨keyword, next, hname, hnext, hrest⟩ := exists_reads_of_cons h
    have hmem : (keyword.text, member.2) ∈ member :: rest := hname ▸ List.mem_cons_self
    exact ih (fun keyword argument node next hmem => hreads keyword argument node next
      (List.mem_cons_of_mem _ hmem)) hrest (hreads _ _ _ _ hmem hnext hnode)

/-! ## Parts -/

/-- What is written in a part of a node is written in the node. -/
theorem Part.of_mem_parts {first : Definition} (hfirst : first ∈ node.parts)
    (h : first.Part part) : (Definition.node node).Part part := by
  simp only [Node.parts, List.mem_append] at hfirst
  rcases hfirst with (hfirst | hfirst) | hfirst
  · split at hfirst
    · next fields hschema =>
      obtain ⟨field, hfield, rfl⟩ := List.mem_map.1 hfirst
      exact .field hschema hfield h
    · cases hfirst
  · exact .item (Option.mem_toList.1 hfirst) h
  · cases hsome : node.either with
    | none => rw [hsome] at hfirst; cases hfirst
    | some alternatives => rw [hsome] at hfirst; exact .alternative hsome hfirst h

theorem exists_of_mem_fieldsOfMembers {members : List (String × Json)}
    {fields : List (String × Definition)} (h : fieldsOfMembers members = .ok fields)
    {field : String × Definition} (hfield : field ∈ fields) :
    ∃ json, (field.1, json) ∈ members ∧ ofJson json = .ok field.2 := by
  induction members generalizing fields with
  | nil =>
    rw [fieldsOfMembers] at h
    cases h
    cases hfield
  | cons member rest ih =>
    obtain ⟨name, json⟩ := member
    rw [fieldsOfMembers] at h
    obtain ⟨first, hfirst, h⟩ := bind_eq_ok h
    obtain ⟨others, hothers, h⟩ := bind_eq_ok h
    cases h
    rcases List.mem_cons.1 hfield with rfl | hfield
    · exact ⟨json, List.mem_cons_self, hfirst⟩
    · obtain ⟨other, hmem, hother⟩ := ih hothers hfield
      exact ⟨other, List.mem_cons_of_mem _ hmem, hother⟩

theorem exists_of_mem_alternativesOfItems {index : Nat} {items : List Json}
    {alternatives : List Definition} (h : alternativesOfItems index items = .ok alternatives)
    {alternative : Definition} (hmem : alternative ∈ alternatives) :
    ∃ json ∈ items, ofJson json = .ok alternative := by
  induction items generalizing index alternatives with
  | nil =>
    rw [alternativesOfItems] at h
    cases h
    cases hmem
  | cons json rest ih =>
    rw [alternativesOfItems] at h
    cases hfirst : ofJson json with
    | error fault => rw [hfirst] at h; cases h
    | ok first =>
      rw [hfirst] at h
      obtain ⟨others, hothers, h⟩ := bind_eq_ok h
      cases h
      rcases List.mem_cons.1 hmem with rfl | hmem
      · exact ⟨json, List.mem_cons_self, hfirst⟩
      · obtain ⟨other, hother, hread⟩ := ih hothers hmem
        exact ⟨other, List.mem_cons_of_mem _ hother, hread⟩

/-- What a member adds to the parts of a node is read from its argument. -/
theorem exists_part_of_reads {keyword : Keyword} {argument : Json}
    (h : node.Reads argument keyword next) (hpart : part ∈ next.parts) :
    part ∈ node.parts ∨ ∃ json, keyword.Part argument json ∧ ofJson json = .ok part := by
  simp only [Node.parts, List.mem_append] at hpart ⊢
  cases h with
  | schema hkeyword hfields =>
    rcases hpart with (hpart | hpart) | hpart
    · obtain ⟨field, hfield, rfl⟩ := List.mem_map.1 hpart
      cases argument with
      | object members =>
        obtain ⟨json, hmem, hread⟩ := exists_of_mem_fieldsOfMembers hfields hfield
        exact .inr ⟨json, .field hkeyword hmem, hread⟩
      | _ => simp [fieldsOfJson] at hfields
    · exact .inl (.inl (.inr hpart))
    · exact .inl (.inr hpart)
  | items hitem =>
    rcases hpart with (hpart | hpart) | hpart
    · exact .inl (.inl (.inl hpart))
    · obtain rfl := List.mem_singleton.1 hpart
      refine .inr ⟨argument, .item ?_, hitem⟩
      rintro rfl
      simp [ofJson] at hitem
    · exact .inl (.inr hpart)
  | bounds => exact .inl hpart
  | either halternatives =>
    rcases hpart with hpart | hpart
    · exact .inl (.inl hpart)
    · cases argument with
      | array items =>
        cases items with
        | nil => simp [alternativesOfJson] at halternatives
        | cons item items =>
          rw [alternativesOfJson] at halternatives
          · obtain ⟨json, hmem, hread⟩ := exists_of_mem_alternativesOfItems halternatives hpart
            exact .inr ⟨json, .alternative hmem, hread⟩
          · rintro ⟨⟩
      | _ => simp [alternativesOfJson] at halternatives
  | other hschema hitems _ heither =>
    rw [hschema, hitems, heither] at hpart
    exact .inl hpart

/-- **Parts are read from arguments of keywords.** -/
theorem exists_argument_of_mem_parts {json : Json} (h : ofJson json = .ok (.node node))
    (hpart : part ∈ node.parts) :
    ∃ members keyword argument inner, json = .object members ∧
      (Keyword.text keyword, argument) ∈ members ∧ keyword.Part argument inner ∧
      ofJson inner = .ok part := by
  obtain ⟨members, rfl, hread⟩ := exists_members_of_ofJson h
  have hparts : ∀ part ∈ node.parts, ∃ keyword argument inner,
      (Keyword.text keyword, argument) ∈ members ∧ keyword.Part argument inner ∧
      ofJson inner = .ok part := by
    refine nodeOfMembers_induct (P := fun node => ∀ part ∈ node.parts, ∃ keyword argument inner,
      (Keyword.text keyword, argument) ∈ members ∧ keyword.Part argument inner ∧
      ofJson inner = .ok part)
      (fun keyword argument node next hmem hreads hnode part hpart => ?_) hread nofun
    obtain hpart | ⟨inner, hinner, hread⟩ := exists_part_of_reads hreads hpart
    · exact hnode part hpart
    · exact ⟨keyword, argument, inner, hmem, hinner, hread⟩
  obtain ⟨keyword, argument, inner, hargument⟩ := hparts part hpart
  exact ⟨members, keyword, argument, inner, rfl, hargument⟩

/-- **Every part was read from a place of the document.** -/
theorem exists_position_of_part {json : Json} (h : ofJson json = .ok definition)
    (hpart : definition.Part part) : ∃ inner, json.Position inner ∧ ofJson inner = .ok part := by
  -- A part is read from an argument, so what is read in it stands further inside.
  have hinside : ∀ {node : Node Definition} {first target : Definition} {json : Json},
      ofJson json = .ok (.node node) → first ∈ node.parts →
      (∀ {json : Json}, ofJson json = .ok first →
        ∃ inner, json.Position inner ∧ ofJson inner = .ok target) →
      ∃ inner, json.Position inner ∧ ofJson inner = .ok target := by
    intro node first target json hread hfirst ih
    obtain ⟨members, keyword, argument, part, rfl, hmem, hpart, hread⟩ :=
      exists_argument_of_mem_parts hread hfirst
    obtain ⟨inner, hposition, hinner⟩ := ih hread
    exact ⟨inner, .part hmem hpart hposition, hinner⟩
  induction hpart generalizing json with
  | refl => exact ⟨json, .root, h⟩
  | field hschema hfield _ ih => exact hinside h (Node.mem_parts_of_field hschema hfield) ih
  | item hitems _ ih => exact hinside h (Node.mem_parts_of_item hitems) ih
  | alternative heither hmem _ ih =>
    exact hinside h (Node.mem_parts_of_alternative heither hmem) ih

/-! ## Regular definitions -/

/-- A node that declares no field twice and has finite bounds. -/
def Regular : Definition → Prop
  | .node keywords =>
    (∀ fields, keywords.schema = some (.declared fields) → (Entries.keys fields).Nodup) ∧
      ∀ bounds, keywords.bounds = some bounds → ∀ comparator bound,
        bounds.get? comparator = some bound → bound.isFinite = true
  | _ => True

end Definition

/-- What a document is made up of at the places of definitions. -/
theorem Json.Throughout.of_position {good : Json → Prop} {json inner : Json}
    (h : json.Throughout good) (hposition : json.Position inner) : inner.Throughout good := by
  induction hposition with
  | root => exact h
  | @part members keyword argument part inner hmem hpart _ ih =>
    obtain ⟨-, hparts⟩ := h
    have hargument := hparts _ (List.mem_map_of_mem hmem)
    refine ih ?_
    cases hpart with
    | field _ hfield =>
      obtain ⟨-, hfields⟩ := hargument
      exact hfields _ (List.mem_map_of_mem hfield)
    | item _ => exact hargument
    | alternative hitem =>
      obtain ⟨-, hitems⟩ := hargument
      exact hitems _ hitem

theorem Json.Distinct.of_position {json inner : Json} (h : json.Distinct)
    (hposition : json.Position inner) : inner.Distinct := by
  induction hposition with
  | root => exact h
  | part hmem hpart _ ih =>
    cases h with
    | object _ hmembers => exact ih (hpart.distinct (hmembers _ hmem))

namespace Definition

/-- **No field is declared twice** in any part of a definition that has been read. -/
theorem nodup_fields_of_part {json : Json} (h : ofJson json = .ok definition)
    (hdistinct : json.Distinct) (hpart : definition.Part (.node node))
    {fields : List (String × Definition)} (hschema : node.schema = some (.declared fields)) :
    (Entries.keys fields).Nodup := by
  obtain ⟨inner, hposition, hread⟩ := exists_position_of_part h hpart
  exact nodup_fields_ofJson hread (hdistinct.of_position hposition) hschema

theorem finite_foldlM_boundMember {members : List (String × Json)} {start bounds : Bounds}
    (h : members.foldlM boundMember start = .ok bounds)
    (hfinite : ∀ member ∈ members, ∀ n, member.2 = .number n → n.toFloat.isFinite = true)
    (hstart : ∀ comparator bound, start.get? comparator = some bound → bound.isFinite = true) :
    ∀ comparator bound, bounds.get? comparator = some bound → bound.isFinite = true := by
  induction members generalizing start with
  | nil =>
    cases h
    exact hstart
  | cons member rest ih =>
    rw [List.foldlM_cons] at h
    obtain ⟨next, hnext, hrest⟩ := bind_eq_ok h
    refine ih hrest (fun member hmem => hfinite member (List.mem_cons_of_mem _ hmem)) ?_
    obtain ⟨comparator, -, hnext⟩ := bind_eq_ok hnext
    cases hjson : member.2 with
    | number n =>
      rw [hjson] at hnext
      cases hnext
      intro other bound hbound
      rw [Bounds.get?_set] at hbound
      split at hbound
      · cases hbound
        exact hfinite member List.mem_cons_self n hjson
      · exact hstart other bound hbound
    | _ => rw [hjson] at hnext; cases hnext

theorem finite_bounds_ofJson {json : Json} (h : ofJson json = .ok (.node node))
    (hfinite : json.Finite) {bounds : Bounds} (hbounds : node.bounds = some bounds) :
    ∀ comparator bound, bounds.get? comparator = some bound → bound.isFinite = true := by
  obtain ⟨members, rfl, hread⟩ := exists_members_of_ofJson h
  obtain ⟨-, hmembers⟩ := hfinite
  refine nodeOfMembers_induct (P := fun node => ∀ bounds, node.bounds = some bounds →
    ∀ comparator bound, bounds.get? comparator = some bound → bound.isFinite = true)
    (fun keyword argument node next hmem hreads hnode bounds hbounds => ?_) hread nofun
    bounds hbounds
  cases hreads with
  | schema | items | either => exact hnode bounds hbounds
  | other _ _ heq _ => exact hnode bounds (heq ▸ hbounds)
  | bounds hargument =>
    cases hbounds
    obtain ⟨-, hinner⟩ := hmembers _ (List.mem_map_of_mem hmem)
    cases argument with
    | object pairs =>
      refine finite_foldlM_boundMember hargument (fun member hmember => ?_) ?_
      · obtain ⟨hself, -⟩ := hinner _ (List.mem_map_of_mem hmember)
        exact hself
      · rintro comparator bound hbound
        cases comparator <;> cases hbound
    | _ => simp [boundsArgument] at hargument

/-- **All parts of a definition that has been read are regular.** -/
theorem regular_ofJson {json : Json} (h : ofJson json = .ok definition)
    (hdistinct : json.Distinct) (hfinite : json.Finite) (hpart : definition.Part part) :
    part.Regular := by
  cases part with
  | shorthand type => trivial
  | deferred thunk => trivial
  | node keywords =>
    obtain ⟨inner, hposition, hread⟩ := exists_position_of_part h hpart
    exact ⟨fun fields hschema => nodup_fields_of_part h hdistinct hpart hschema,
      fun bounds hbounds => finite_bounds_ofJson hread (hfinite.of_position hposition) hbounds⟩

end Definition

end Conform
