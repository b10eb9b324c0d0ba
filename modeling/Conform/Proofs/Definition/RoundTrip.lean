import Conform.Proofs.Definition.Drafted
import Conform.Proofs.Definition.Provenance
import Conform.Proofs.Value.Printed

/-!
# Definitions that are written out and read again

A definition that was read from a document is written out as a value, and the value is written
as a document.  That document can be read, and what is read is equal to the definition at every
depth.  It is not the same definition: documents in it have been values in between, so a member
named twice is named once, and a number is the one that its digits stand for.

The second reading finds at most one member for a keyword, and finds it under the first name of
the keyword.  So a node is read from what is given for each keyword apart, whatever the order.

## Main definitions

* `Definition.Equal`: definitions that are equal at every depth.
* `Definition.Sayable`: definitions that can be read again when they have been written out.
* `Definition.rewritten`: the definition that is read again.
* `Node.ReadFrom`: a node whose keywords are read each from what is given for it.

## Main results

* `Definition.ofJson_toJson_draft`: what is read again.
* `Definition.Sayable.equal_rewritten`: it is equal to the definition.
* `Definition.equal_ofJson_toValue`: a definition that was read comes back from its value.
-/

namespace Conform

variable {δ ε : Type}

/-! ## Equality -/

/-- Fallbacks that stand in alike: documents for equal values, or the same code. -/
inductive Fallback.Equal : Fallback → Fallback → Prop where
  | literal {json json' : Json} : json.Equal json' → Equal (.literal json) (.literal json')
  | produced (code : Code) : Equal (.produced code) (.produced code)

/-- The same fields in the same order, with related definitions. -/
inductive Fields.Equal (R : δ → ε → Prop) : Fields δ → Fields ε → Prop where
  | declared {fields : List (String × δ)} {others : List (String × ε)} :
      Entries.keys fields = Entries.keys others →
      List.Forall₂ R (fields.map Prod.snd) (others.map Prod.snd) →
      Equal R (.declared fields) (.declared others)
  | deferred (code : Code) : Equal R (.deferred code) (.deferred code)

/-- The same bounds, as numbers. -/
def Bounds.Equal (bounds others : Bounds) : Prop :=
  ∀ comparator, Option.Rel (fun x y : Float => (x == y) = true) (bounds.get? comparator)
    (others.get? comparator)

/-- Nodes whose keywords have equal arguments, those aside in which there are definitions:
flags, types and names are the same, documents stand for equal values, bounds are the same
numbers. -/
structure Node.SameArguments (first second : Node δ) : Prop where
  optional : first.optional = second.optional
  required : first.required = second.required
  fallback : Option.Rel Fallback.Equal first.fallback second.fallback
  kind : first.kind = second.kind
  allowed : Option.Rel (List.Forall₂ Json.Equal) first.allowed second.allowed
  bounds : Option.Rel Bounds.Equal first.bounds second.bounds
  strict : first.strict = second.strict
  require : first.require = second.require
  restrict : first.restrict = second.restrict
  custom : first.custom = second.custom

/-- Definitions that are equal at every depth: of the same form, with equal arguments, with the
same fields in the same order and the same number of alternatives, all of them equal in turn. -/
inductive Definition.Equal : Definition → Definition → Prop where
  | shorthand (type : TypeName) : Equal (.shorthand type) (.shorthand type)
  | deferred (thunk : Thunk) : Equal (.deferred thunk) (.deferred thunk)
  | node {first second : Node Definition} : first.SameArguments second →
      Option.Rel (Fields.Equal Equal) first.schema second.schema →
      Option.Rel Equal first.items second.items →
      Option.Rel (List.Forall₂ Equal) first.either second.either →
      Equal (.node first) (.node second)

/-! ## What is read again -/

/-- The document as it is written when it has been a value. -/
def Json.rewritten (json : Json) : Json := (Draft.ofJson json).toJson

/-- The number as it is read when it has been written. -/
def Number.rewritten (x : Float) : Float := (Json.ofFloat x).float?.getD x

/-- The default with its document written anew. -/
def Fallback.rewritten : Fallback → Fallback
  | .literal json => .literal json.rewritten
  | .produced code => .produced code

/-- The bounds with their numbers written anew. -/
def Bounds.rewritten (bounds : Bounds) : Bounds where
  gt := bounds.gt.map Number.rewritten
  gte := bounds.gte.map Number.rewritten
  lt := bounds.lt.map Number.rewritten
  lte := bounds.lte.map Number.rewritten

theorem Bounds.get?_rewritten (bounds : Bounds) (comparator : Comparator) :
    bounds.rewritten.get? comparator = (bounds.get? comparator).map Number.rewritten := by
  cases comparator <;> rfl

theorem Bounds.eq_of_get? {bounds others : Bounds}
    (h : ∀ comparator, bounds.get? comparator = others.get? comparator) : bounds = others := by
  obtain ⟨_, _, _, _⟩ := bounds
  obtain ⟨_, _, _, _⟩ := others
  simp only [Bounds.mk.injEq]
  exact ⟨h .gt, h .gte, h .lt, h .lte⟩

/-- The node with its documents and numbers written anew. -/
def Node.rewritten (node : Node δ) : Node δ :=
  { node with
    fallback := node.fallback.map Fallback.rewritten
    allowed := node.allowed.map (·.map Json.rewritten)
    bounds := node.bounds.map Bounds.rewritten }

/-- The definition with all documents and numbers in it written anew. -/
def Definition.rewritten : Definition → Definition :=
  fold .shorthand .deferred fun node => .node node.rewritten

theorem Definition.rewritten_node (keywords : Node Definition) :
    rewritten (.node keywords) = .node (keywords.map rewritten).rewritten := by
  unfold rewritten
  rw [fold_node]

/-- The documents that a node quotes: its default, and those of which a value must have the
contents of one. -/
def Node.literals (node : Node δ) : List Json :=
  (match node.fallback with
    | some (.literal json) => [json]
    | _ => []) ++ node.allowed.getD []

/-- A definition that can be read again when it has been written out: nothing in it is deferred,
no field is declared twice, alternatives are given where they are asked for, and numbers have
digits. -/
structure Definition.Sayable (definition : Definition) : Prop where
  written : definition.Written
  regular : ∀ part, definition.Part part → part.Regular
  furnished : ∀ keywords, definition.Part (.node keywords) → keywords.either ≠ some []
  literals : ∀ keywords, definition.Part (.node keywords) →
    ∀ json ∈ keywords.literals, json.Finite

theorem Definition.Sayable.of_mem_parts {keywords : Node Definition} {part : Definition}
    (h : Sayable (.node keywords)) (hpart : part ∈ keywords.parts) : Sayable part where
  written := h.written.of_mem_parts hpart
  regular inner hinner := h.regular inner (.of_mem_parts hpart hinner)
  furnished node hnode := h.furnished node (.of_mem_parts hpart hnode)
  literals node hnode := h.literals node (.of_mem_parts hpart hnode)

theorem Number.exists_rewritten {x : Float} (h : x.isFinite = true) :
    ∃ n : Json.Number, Json.ofFloat x = .number n ∧ rewritten x = n.toFloat ∧
      (x == n.toFloat) = true := by
  obtain ⟨n, hprinted, hequal⟩ := Json.exists_ofFloat h
  refine ⟨n, hprinted, ?_, hequal⟩
  rw [rewritten, hprinted]
  rfl

/-! ### It is equal -/

theorem Json.equal_rewritten {json : Json} (h : json.Finite) : json.Equal json.rewritten :=
  .of_draft (Draft.sayable_ofJson h).equal_ofJson_toJson

theorem Bounds.equal_rewritten {bounds : Bounds} (h : ∀ comparator bound,
    bounds.get? comparator = some bound → bound.isFinite = true) :
    bounds.Equal bounds.rewritten := by
  intro comparator
  rw [get?_rewritten]
  cases hbound : bounds.get? comparator with
  | none => exact .none
  | some x =>
    obtain ⟨n, -, hread, hequal⟩ := Number.exists_rewritten (h comparator x hbound)
    exact .some (hread ▸ hequal)

namespace Definition

theorem Sayable.sameArguments {keywords : Node Definition} (h : Sayable (.node keywords)) :
    keywords.SameArguments (keywords.map rewritten).rewritten := by
  have hliterals : ∀ json ∈ keywords.literals, json.Equal json.rewritten := fun json hjson =>
    Json.equal_rewritten (h.literals keywords .refl json hjson)
  obtain ⟨-, hbounds⟩ := h.regular _ .refl
  refine ⟨rfl, rfl, rel_map_right fun fallback hfallback => ?_, rfl,
    rel_map_right fun allowed hallowed => ?_, rel_map_right fun bounds hsome => ?_,
    rfl, rfl, rfl, rfl⟩
  · cases fallback with
    | literal json => exact .literal (hliterals json (by simp [Node.literals, hfallback]))
    | produced code => exact .produced code
  · have hsome : keywords.allowed = some allowed := hallowed
    exact forall₂_map_right fun json hjson =>
      hliterals json (by simp [Node.literals, hsome, hjson])
  · exact Bounds.equal_rewritten (hbounds bounds hsome)

/-- **The definition that is read again is equal.** -/
theorem Sayable.equal_rewritten {definition : Definition} (h : definition.Sayable) :
    definition.Equal definition.rewritten := by
  induction definition with
  | shorthand type => exact .shorthand type
  | deferred thunk => exact .deferred thunk
  | node keywords ih =>
    have hpart : ∀ part ∈ keywords.parts, part.Equal part.rewritten := fun part hpart =>
      ih part hpart (h.of_mem_parts hpart)
    rw [rewritten_node]
    refine .node h.sameArguments (rel_map_right fun fields hschema => ?_)
      (rel_map_right fun item hitems => hpart item (Node.mem_parts_of_item hitems))
      (rel_map_right fun alternatives heither => forall₂_map_right fun alternative hmem =>
        hpart alternative (Node.mem_parts_of_alternative heither hmem))
    cases fields with
    | declared fields =>
      refine .declared (by simp [Entries.keys]) ?_
      rw [List.map_map, List.forall₂_map_left_iff, List.forall₂_map_right_iff]
      exact List.forall₂_same.2 fun field hfield =>
        hpart _ (Node.mem_parts_of_field hschema hfield)
    | deferred code => exact .deferred code

end Definition

/-! ## Reading keyword by keyword -/

namespace Node

/-- The node with the arguments of some keywords only. -/
def only (node : Node δ) (keywords : List Keyword) : Node δ where
  optional := .optional ∈ keywords && node.optional
  required := if .required ∈ keywords then node.required else none
  fallback := if .default ∈ keywords then node.fallback else none
  kind := if .type ∈ keywords then node.kind else none
  schema := if .schema ∈ keywords then node.schema else none
  items := if .items ∈ keywords then node.items else none
  allowed := if .oneOf ∈ keywords then node.allowed else none
  bounds := if .bounds ∈ keywords then node.bounds else none
  either := if .either ∈ keywords then node.either else none
  strict := if .strict ∈ keywords then node.strict else none
  require := if .require ∈ keywords then node.require else none
  restrict := if .restrict ∈ keywords then node.restrict else none
  custom := if .custom ∈ keywords then node.custom else none

/-- Each keyword that a node sets is read from the argument that is given, and none is given
for the others. -/
structure ReadFrom (node : Node Definition) (given : Keyword → Option Json) : Prop where
  optional : (given .optional).map (Definition.boolArgument Keyword.optional.text) =
    (if node.optional then some true else none).map .ok
  required : (given .required).map (Definition.boolArgument Keyword.required.text) =
    node.required.map .ok
  fallback : (given .default).map Fallback.literal = node.fallback
  kind : (given .type).map (Definition.typeArgument Keyword.type.text) = node.kind.map .ok
  schema : (given .schema).map (fun argument =>
    Fields.declared <$> Definition.fieldsOfJson Keyword.schema.text argument) =
      node.schema.map .ok
  items : (given .items).map Definition.ofJson = node.items.map .ok
  allowed : (given .oneOf).map (Definition.allowedArgument Keyword.oneOf.text) =
    node.allowed.map .ok
  bounds : (given .bounds).map (Definition.boundsArgument Keyword.bounds.text) =
    node.bounds.map .ok
  either : (given .either).map (Definition.alternativesOfJson Keyword.either.text) =
    node.either.map .ok
  strict : (given .strict).map (Definition.boolArgument Keyword.strict.text) =
    node.strict.map .ok
  require : (given .require).map (Definition.namesArgument Keyword.require.text) =
    node.require.map .ok
  restrict : (given .restrict).map (Definition.namesArgument Keyword.restrict.text) =
    node.restrict.map .ok
  custom : given .custom = none ∧ node.custom = none

end Node

namespace Definition

/-- A member that is given sets its keyword; nothing is done where none is given. -/
theorem nodeOfMembers_given {α : Type} {keyword : Keyword} {given : Option Json}
    {read : Json → Except DefinitionError α} {field : Option α} {start next : Node Definition}
    {rest : List (String × Json)} (set : Option α → Node Definition)
    (hgiven : given.map read = field.map .ok)
    (hread : ∀ argument, nodeOfMembers start ((keyword.text, argument) :: rest) =
      (do let a ← read argument; nodeOfMembers (set (some a)) rest))
    (hstart : set none = start) (hnext : set field = next) :
    nodeOfMembers start ((given.map fun argument => (keyword.text, argument)).toList ++ rest) =
      nodeOfMembers next rest := by
  cases given with
  | none =>
    cases field with
    | none => rw [← hnext, hstart]; rfl
    | some a => cases hgiven
  | some argument =>
    cases field with
    | none => cases hgiven
    | some a =>
      refine (hread argument).trans ?_
      rw [Option.some.inj hgiven, ← hnext]
      rfl

/-- **A member sets its keyword** in a node that has the arguments of other keywords. -/
theorem nodeOfMembers_only {node : Node Definition} {given : Keyword → Option Json}
    (h : node.ReadFrom given) {keyword : Keyword}
    (hkeyword : keyword ≠ .properties ∧ keyword ≠ .enumeration) {done : List Keyword}
    (hnew : keyword ∉ done) (rest : List (String × Json)) :
    nodeOfMembers (node.only done)
        (((given keyword).map fun argument => (keyword.text, argument)).toList ++ rest) =
      nodeOfMembers (node.only (keyword :: done)) rest := by
  cases keyword with
  | optional =>
    refine nodeOfMembers_given (fun a => { node.only done with optional := a.getD false })
      h.optional (fun argument => rfl) (by simp [Node.only, hnew]) ?_
    cases hset : node.optional <;> simp [Node.only, hset]
  | required =>
    exact nodeOfMembers_given (fun a => { node.only done with required := a }) h.required
      (fun argument => rfl) (by simp [Node.only, hnew]) (by simp [Node.only])
  | default =>
    have hgiven : (given .default).map (fun argument =>
        (Except.ok (.literal argument) : Except DefinitionError Fallback)) =
        node.fallback.map .ok := by
      rw [← h.fallback, Option.map_map]
      rfl
    exact nodeOfMembers_given (fun a => { node.only done with fallback := a }) hgiven
      (fun argument => rfl) (by simp [Node.only, hnew]) (by simp [Node.only])
  | type =>
    exact nodeOfMembers_given (fun a => { node.only done with kind := a }) h.kind
      (fun argument => rfl) (by simp [Node.only, hnew]) (by simp [Node.only])
  | schema =>
    refine nodeOfMembers_given (fun a => { node.only done with schema := a }) h.schema
      (fun argument => ?_) (by simp [Node.only, hnew]) (by simp [Node.only])
    have hunset : (node.only done).schema = none := if_neg hnew
    rw [nodeOfMembers, Keyword.ofText?_text]
    simp only [hunset]
    cases fieldsOfJson Keyword.schema.text argument <;> rfl
  | items =>
    exact nodeOfMembers_given (fun a => { node.only done with items := a }) h.items
      (fun argument => rfl) (by simp [Node.only, hnew]) (by simp [Node.only])
  | oneOf =>
    refine nodeOfMembers_given (fun a => { node.only done with allowed := a }) h.allowed
      (fun argument => ?_) (by simp [Node.only, hnew]) (by simp [Node.only])
    have hunset : (node.only done).allowed = none := if_neg hnew
    rw [nodeOfMembers, Keyword.ofText?_text]
    simp only [hunset]
    rfl
  | bounds =>
    exact nodeOfMembers_given (fun a => { node.only done with bounds := a }) h.bounds
      (fun argument => rfl) (by simp [Node.only, hnew]) (by simp [Node.only])
  | either =>
    exact nodeOfMembers_given (fun a => { node.only done with either := a }) h.either
      (fun argument => rfl) (by simp [Node.only, hnew]) (by simp [Node.only])
  | strict =>
    exact nodeOfMembers_given (fun a => { node.only done with strict := a }) h.strict
      (fun argument => rfl) (by simp [Node.only, hnew]) (by simp [Node.only])
  | require =>
    exact nodeOfMembers_given (fun a => { node.only done with require := a }) h.require
      (fun argument => rfl) (by simp [Node.only, hnew]) (by simp [Node.only])
  | restrict =>
    exact nodeOfMembers_given (fun a => { node.only done with restrict := a }) h.restrict
      (fun argument => rfl) (by simp [Node.only, hnew]) (by simp [Node.only])
  | custom =>
    rw [h.custom.1]
    simp [Node.only, h.custom.2]
  | properties => exact absurd rfl hkeyword.1
  | enumeration => exact absurd rfl hkeyword.2

/-- **A node is read from what is given for its keywords**, in whatever order. -/
theorem nodeOfMembers_of_readFrom {node : Node Definition} {given : Keyword → Option Json}
    (h : node.ReadFrom given) {keywords : List Keyword} (hnodup : keywords.Nodup)
    (hkeywords : ∀ keyword, keyword ∈ keywords ↔ keyword ≠ .properties ∧ keyword ≠ .enumeration) :
    nodeOfMembers {} (keywords.filterMap fun keyword =>
      (given keyword).map fun argument => (keyword.text, argument)) = .ok node := by
  -- Each member is read when those before it have set their keywords, and no others are set.
  have hrun : ∀ (rest done : List Keyword), (∀ keyword ∈ rest, keyword ∈ keywords) →
      (done ++ rest).Nodup → nodeOfMembers (node.only done) (rest.filterMap fun keyword =>
        (given keyword).map fun argument => (keyword.text, argument)) =
          .ok (node.only (rest.reverse ++ done)) := by
    intro rest
    induction rest with
    | nil => intro done _ _; rfl
    | cons keyword rest ih =>
      intro done hmem hnodup
      obtain ⟨hkeyword, hrest⟩ := List.forall_mem_cons.1 hmem
      have hperm : (done ++ keyword :: rest).Perm (keyword :: (done ++ rest)) := List.perm_middle
      obtain ⟨hnew, -⟩ := List.nodup_cons.1 (hperm.nodup_iff.1 hnodup)
      have hfirst : ∀ {α : Type} (f : Keyword → Option α), (keyword :: rest).filterMap f =
          (f keyword).toList ++ rest.filterMap f := by
        intro α f
        rw [List.filterMap_cons]
        cases f keyword <;> rfl
      rw [hfirst, nodeOfMembers_only h ((hkeywords keyword).1 hkeyword)
        (fun hdone => hnew (List.mem_append_left _ hdone)),
        ih (keyword :: done) hrest (hperm.nodup_iff.1 hnodup)]
      simp
  have hempty : ({} : Node Definition) = node.only [] := by simp [Node.only]
  have hall : node.only (keywords.reverse ++ []) = node := by simp [Node.only, hkeywords]
  rw [hempty, hrun keywords [] (fun _ => id) hnodup, hall]

/-! ## Reading arguments -/

theorem mapM_nameArgument (keyword : String) (names : List String) :
    (names.map Json.string).mapM (nameArgument keyword) = .ok names := by
  induction names with
  | nil => rfl
  | cons name rest ih =>
    rw [List.map_cons, List.mapM_cons, ih]
    rfl

theorem namesArgument_draftNames (keyword : String) (names : List String) :
    namesArgument keyword (Node.draftNames names).toJson = .ok names := by
  rw [Node.draftNames, Draft.toJson, Draft.toItems_eq_map, List.map_map]
  exact mapM_nameArgument keyword names

theorem toJson_draftBounds (bounds : Bounds) :
    (Node.draftBounds bounds).toJson = .object (Comparator.all.filterMap fun comparator =>
      (bounds.get? comparator).map fun x => (comparator.text, .ofFloat x)) := by
  have hnodup : (Entries.keys (bounds.toList.map fun bound =>
      (bound.1.text, Draft.number bound.2))).Nodup := by
    have hnames := @Entries.nodup_keys_filterMap _ _ Comparator.text
      (fun comparator => (bounds.get? comparator).map Draft.number) Comparator.all (by decide)
    simp only [Option.map_map] at hnames
    rw [Bounds.toList, List.map_filterMap]
    simp only [Option.map_map]
    exact hnames
  rw [Node.draftBounds, Entries.collect_of_nodup hnodup, Draft.toJson,
    Draft.toMembers_eq_mapValues, Entries.mapValues, Bounds.toList, List.map_map,
    List.map_filterMap]
  simp only [Option.map_map]
  rfl

/-- Bounds are read one by one, each in the place of what was there before. -/
theorem foldlM_boundMember_ofFloat {bounds : Bounds} (hfinite : ∀ comparator bound,
      bounds.get? comparator = some bound → bound.isFinite = true)
    (comparators : List Comparator) (start : Bounds) :
    ∃ read, (comparators.filterMap fun comparator => (bounds.get? comparator).map fun x =>
        (comparator.text, Json.ofFloat x)).foldlM boundMember start = .ok read ∧
      ∀ comparator, read.get? comparator = if comparator ∈ comparators then
        (bounds.rewritten.get? comparator).or (start.get? comparator)
      else start.get? comparator := by
  induction comparators generalizing start with
  | nil => exact ⟨start, rfl, fun _ => rfl⟩
  | cons first rest ih =>
    cases hbound : bounds.get? first with
    | none =>
      obtain ⟨read, hread, hget⟩ := ih start
      refine ⟨read, by simpa [List.filterMap_cons, hbound] using hread, fun comparator => ?_⟩
      have hnone : bounds.rewritten.get? first = none := by
        rw [Bounds.get?_rewritten, hbound, Option.map_none]
      rw [hget]
      by_cases heq : comparator = first
      · subst heq
        simp [hnone]
      · simp [heq]
    | some x =>
      obtain ⟨n, hprinted, hrewritten, -⟩ := Number.exists_rewritten (hfinite first x hbound)
      obtain ⟨read, hread, hget⟩ := ih (start.set first n.toFloat)
      have hset : boundMember start (first.text, Json.ofFloat x) =
          .ok (start.set first n.toFloat) := by
        rw [boundMember, Comparator.ofText_text, hprinted]
        rfl
      have hsome : bounds.rewritten.get? first = some n.toFloat := by
        rw [Bounds.get?_rewritten, hbound, Option.map_some, hrewritten]
      refine ⟨read, ?_, fun comparator => ?_⟩
      · simp only [List.filterMap_cons, hbound, Option.map_some, List.foldlM_cons, hset]
        exact hread
      · rw [hget, Bounds.get?_set]
        by_cases heq : first = comparator
        · subst heq
          simp [hsome]
        · simp [heq, Ne.symm heq]

theorem boundsArgument_draftBounds (keyword : String) {bounds : Bounds}
    (hfinite : ∀ comparator bound,
      bounds.get? comparator = some bound → bound.isFinite = true) :
    boundsArgument keyword (Node.draftBounds bounds).toJson = .ok bounds.rewritten := by
  obtain ⟨read, hread, hget⟩ := foldlM_boundMember_ofFloat hfinite Comparator.all {}
  have heq : read = bounds.rewritten := by
    refine Bounds.eq_of_get? fun comparator => ?_
    have hall : comparator ∈ Comparator.all := by cases comparator <;> decide
    have hunset : ({} : Bounds).get? comparator = none := by cases comparator <;> rfl
    rw [hget, if_pos hall, hunset, Option.or_none]
  rw [toJson_draftBounds, boundsArgument, hread, heq]

theorem fieldsOfMembers_toJson_draft {fields : List (String × Definition)}
    (h : ∀ field ∈ fields, ofJson field.2.draft.toJson = .ok field.2.rewritten) :
    fieldsOfMembers (fields.map fun field => (field.1, field.2.draft.toJson)) =
      .ok (fields.map fun field => (field.1, field.2.rewritten)) := by
  induction fields with
  | nil => rfl
  | cons field rest ih =>
    obtain ⟨hfield, hrest⟩ := List.forall_mem_cons.1 h
    rw [List.map_cons, fieldsOfMembers, hfield, ih hrest]
    rfl

theorem fieldsOfJson_draftFields (keyword : String) {fields : List (String × Definition)}
    (hnodup : (Entries.keys fields).Nodup)
    (h : ∀ field ∈ fields, ofJson field.2.draft.toJson = .ok field.2.rewritten) :
    fieldsOfJson keyword (Node.draftFields (.declared (fields.map fun field =>
      (field.1, field.2.draft)))).toJson =
      .ok (fields.map fun field => (field.1, field.2.rewritten)) := by
  have hkeys : (Entries.keys (fields.map fun field => (field.1, field.2.draft))).Nodup := by
    rw [Entries.keys, List.map_map]
    exact hnodup
  rw [Node.draftFields, Entries.collect_of_nodup hkeys, Draft.toJson,
    Draft.toMembers_eq_mapValues, Entries.mapValues, List.map_map, fieldsOfJson]
  exact fieldsOfMembers_toJson_draft h

theorem alternativesOfItems_toJson_draft {alternatives : List Definition}
    (h : ∀ alternative ∈ alternatives,
      ofJson alternative.draft.toJson = .ok alternative.rewritten) (index : Nat) :
    alternativesOfItems index (alternatives.map fun alternative => alternative.draft.toJson) =
      .ok (alternatives.map rewritten) := by
  induction alternatives generalizing index with
  | nil => rfl
  | cons alternative rest ih =>
    obtain ⟨hfirst, hrest⟩ := List.forall_mem_cons.1 h
    rw [List.map_cons, alternativesOfItems, hfirst]
    simp only [ih hrest]
    rfl

theorem alternativesOfJson_draft (keyword : String) {alternatives : List Definition}
    (hsome : alternatives ≠ []) (h : ∀ alternative ∈ alternatives,
      ofJson alternative.draft.toJson = .ok alternative.rewritten) :
    alternativesOfJson keyword (Draft.array (alternatives.map draft)).toJson =
      .ok (alternatives.map rewritten) := by
  rw [Draft.toJson, Draft.toItems_eq_map, List.map_map]
  cases alternatives with
  | nil => exact absurd rfl hsome
  | cons alternative rest => exact alternativesOfItems_toJson_draft h 0

/-! ## Reading again -/

/-- What is written of the keywords of a node can be read, if that of its parts can. -/
theorem readFrom_rewritten {keywords : Node Definition} (h : Sayable (.node keywords))
    (hparts : ∀ part ∈ keywords.parts, ofJson part.draft.toJson = .ok part.rewritten) :
    (keywords.map rewritten).rewritten.ReadFrom fun keyword =>
      ((keywords.map draft).argument keyword).map Draft.toJson := by
  have hwritten := written_node_iff.1 h.written
  obtain ⟨hnodup, hfinite⟩ := h.regular _ .refl
  have hflag : ∀ b : Bool,
      (if b then some (Draft.bool true) else none).map
        (boolArgument Keyword.optional.text ∘ Draft.toJson) =
          (if b then some true else none).map .ok := by
    rintro ⟨⟩ <;> rfl
  constructor <;> simp only [Node.rewritten, Node.map, Node.argument, Option.map_map]
  case optional => exact hflag keywords.optional
  case required => cases keywords.required <;> rfl
  case fallback =>
    rcases hfallback : keywords.fallback with _ | json | code
    · rfl
    · rfl
    · exact absurd hfallback (hwritten.fallback code)
  case kind =>
    cases keywords.kind with
    | none => rfl
    | some kind => exact congrArg some (TypeName.ofText_text kind)
  case schema =>
    rcases hschema : keywords.schema with _ | fields | code
    · rfl
    · have hfields := fieldsOfJson_draftFields Keyword.schema.text (hnodup fields hschema)
        fun field hfield => hparts _ (Node.mem_parts_of_field hschema hfield)
      exact congrArg (fun read => some (Fields.declared <$> read)) hfields
    · exact absurd hschema (hwritten.deferred code)
  case items =>
    cases hitems : keywords.items with
    | none => rfl
    | some item => exact congrArg some (hparts item (Node.mem_parts_of_item hitems))
  case allowed =>
    cases keywords.allowed with
    | none => rfl
    | some allowed =>
      simp only [Option.map_some, Function.comp_apply, Draft.toJson, Draft.toItems_eq_map,
        Draft.ofItems_eq_map, List.map_map]
      rfl
  case bounds =>
    cases hbounds : keywords.bounds with
    | none => rfl
    | some bounds =>
      exact congrArg some (boundsArgument_draftBounds _ (hfinite bounds hbounds))
  case either =>
    cases heither : keywords.either with
    | none => rfl
    | some alternatives =>
      refine congrArg some (alternativesOfJson_draft _ ?_ fun alternative hmem =>
        hparts _ (Node.mem_parts_of_alternative heither hmem))
      rintro rfl
      exact h.furnished keywords .refl heither
  case strict => cases keywords.strict <;> rfl
  case require =>
    cases keywords.require with
    | none => rfl
    | some names => exact congrArg some (namesArgument_draftNames _ names)
  case restrict =>
    cases keywords.restrict with
    | none => rfl
    | some names => exact congrArg some (namesArgument_draftNames _ names)
  case custom => simp [hwritten.custom]

/-- **What is read again** from what is written of a definition. -/
theorem ofJson_toJson_draft {definition : Definition} (h : definition.Sayable) :
    ofJson definition.draft.toJson = .ok definition.rewritten := by
  induction definition with
  | shorthand type =>
    rw [show (draft (.shorthand type)).toJson = .string type.text from rfl, ofJson,
      TypeName.ofText_text]
    rfl
  | deferred thunk => cases h.written
  | node keywords ih =>
    have hfrom := readFrom_rewritten h fun part hpart => ih part hpart (h.of_mem_parts hpart)
    have hread : nodeOfMembers {} (Entries.mapValues Draft.toJson (keywords.map draft).members) =
        .ok (keywords.map rewritten).rewritten := by
      have hprinted : ∀ names : List Keyword, Entries.mapValues Draft.toJson
          (names.filterMap fun keyword => ((keywords.map draft).argument keyword).map
            fun argument => (keyword.text, argument)) = names.filterMap fun keyword =>
              (((keywords.map draft).argument keyword).map Draft.toJson).map
                fun argument => (keyword.text, argument) := by
        intro names
        rw [Entries.mapValues, List.map_filterMap]
        simp only [Option.map_map]
        rfl
      rw [Node.members, hprinted]
      exact nodeOfMembers_of_readFrom hfrom (by decide) (by rintro ⟨⟩ <;> decide)
    rw [draft_node, rewritten_node, Node.draft, Draft.toJson, Draft.toMembers_eq_mapValues,
      ofJson, hread]
    rfl

/-! ## Definitions that were read -/

/-- What a node quotes is the argument of a member, or an item of one. -/
theorem mem_literals_of_read {members : List (String × Json)} {node last : Node Definition}
    (h : nodeOfMembers node members = .ok last) {json : Json} (hjson : json ∈ last.literals) :
    json ∈ node.literals ∨ ∃ member ∈ members, json = member.2 ∨ json ∈ member.2.parts := by
  induction members generalizing node with
  | nil =>
    cases h
    exact .inl hjson
  | cons member rest ih =>
    obtain ⟨name, argument⟩ := member
    rw [nodeOfMembers] at h
    have hnext : ∀ {next : Node Definition}, nodeOfMembers next rest = .ok last →
        (json ∈ next.literals → json ∈ node.literals ∨ json = argument ∨ json ∈ argument.parts) →
        json ∈ node.literals ∨
          ∃ member ∈ (name, argument) :: rest, json = member.2 ∨ json ∈ member.2.parts := by
      intro next hrest hstep
      obtain hmem | ⟨member, hmember, hmem⟩ := ih hrest
      · exact (hstep hmem).imp_right fun hmem => ⟨_, List.mem_cons_self, hmem⟩
      · exact .inr ⟨member, List.mem_cons_of_mem _ hmember, hmem⟩
    cases hkeyword : Keyword.ofText? name with
    | none => rw [hkeyword] at h; cases h
    | some keyword =>
      rw [hkeyword] at h
      cases keyword with
      | optional | required | strict | type | items | bounds | either | require | restrict =>
        obtain ⟨_, -, h⟩ := bind_eq_ok h
        exact hnext h .inl
      | default =>
        refine hnext h fun hmem => ?_
        obtain rfl | hmem := List.mem_cons.1 hmem
        · exact .inr (.inl rfl)
        · exact .inl (List.mem_append_right _ hmem)
      | schema | properties =>
        simp only at h
        split at h
        · cases h
        · obtain ⟨_, -, h⟩ := bind_eq_ok h
          exact hnext h .inl
      | oneOf | enumeration =>
        simp only at h
        split at h
        · cases h
        · obtain ⟨_, hargument, h⟩ := bind_eq_ok h
          refine hnext h fun hmem => ?_
          obtain hmem | hmem := List.mem_append.1 hmem
          · exact .inl (List.mem_append_left _ hmem)
          · cases argument with
            | array items =>
              cases hargument
              exact .inr (.inr hmem)
            | _ => simp [allowedArgument, Json.items?] at hargument
      | custom => cases h

/-- What a node quotes is made up of what its document is made up of. -/
theorem finite_literals_of_read {json : Json} {keywords : Node Definition}
    (h : ofJson json = .ok (.node keywords)) (hfinite : json.Finite) {literal : Json}
    (hliteral : literal ∈ keywords.literals) : literal.Finite := by
  obtain ⟨members, rfl, hread⟩ := exists_members_of_ofJson h
  obtain ⟨-, hmembers⟩ := hfinite
  obtain hmem | ⟨member, hmember, hmem⟩ := mem_literals_of_read hread hliteral
  · cases hmem
  · have hargument := hmembers _ (List.mem_map_of_mem hmember)
    obtain rfl | hmem := hmem
    · exact hargument
    · obtain ⟨-, hparts⟩ := hargument
      exact hparts literal hmem

/-- Where alternatives are asked for, some have been read. -/
theorem either_ne_nil_of_read {json : Json} {keywords : Node Definition}
    (h : ofJson json = .ok (.node keywords)) : keywords.either ≠ some [] := by
  obtain ⟨members, rfl, hread⟩ := exists_members_of_ofJson h
  refine nodeOfMembers_induct (P := fun node => node.either ≠ some [])
    (fun keyword argument node next _ hreads hnode => ?_) hread nofun
  cases hreads with
  | schema | items | bounds => exact hnode
  | other _ _ _ heq => exact heq ▸ hnode
  | either hargument =>
    rintro ⟨⟩
    rcases argument with _ | _ | _ | _ | (_ | ⟨first, rest⟩) | _
    all_goals simp only [alternativesOfJson, reduceCtorEq] at hargument
    rw [alternativesOfItems] at hargument
    cases hfirst : ofJson first with
    | error fault => rw [hfirst] at hargument; cases hargument
    | ok alternative =>
      rw [hfirst] at hargument
      obtain ⟨_, -, hargument⟩ := bind_eq_ok hargument
      cases hargument

/-- Definitions that have been read can be read again. -/
theorem sayable_ofJson {json : Json} {definition : Definition}
    (h : ofJson json = .ok definition) (hdistinct : json.Distinct) (hfinite : json.Finite) :
    definition.Sayable where
  written := written_ofJson json h
  regular part hpart := regular_ofJson h hdistinct hfinite hpart
  furnished keywords hpart := by
    obtain ⟨inner, -, hread⟩ := exists_position_of_part h hpart
    exact either_ne_nil_of_read hread
  literals keywords hpart literal hliteral := by
    obtain ⟨inner, hposition, hread⟩ := exists_position_of_part h hpart
    exact finite_literals_of_read hread (hfinite.of_position hposition) hliteral

/-- **A definition that was read comes back from its value.**  If it is written out as a value,
in any heap, and the value as a document, then that document can be read, and what is read is
equal to the definition at every depth. -/
theorem equal_ofJson_toValue {json : Json} {definition : Definition}
    (hread : ofJson json = .ok definition) (hdistinct : json.Distinct) (hfinite : json.Finite)
    (heap : Heap) :
    let made := definition.toValue heap
    ∃ again, ofJson (made.1.toJson made.2) = .ok again ∧ definition.Equal again := by
  intro made
  have hsayable := sayable_ofJson hread hdistinct hfinite
  obtain ⟨-, hdenotes⟩ := definition.makes_toValue heap
  refine ⟨definition.rewritten, ?_, hsayable.equal_rewritten⟩
  rw [hdenotes.toJson_eq]
  exact ofJson_toJson_draft hsayable

/-- A flag that says what holds anyway, fields under their other name, a bound next to which
doubles are no longer whole, and definitions inside of each other. -/
theorem equal_ofJson_toValue_nested :
    let amount : Json := .object [("type", .string "number"), ("bounds", .object
      [("lte", .number (.integer 9007199254740993)), ("gt", .number (.integer 0))])]
    let choice : Json := .object [("either", .array [.string "string", amount])]
    let json : Json := .object [("optional", .bool false),
      ("properties", .object [("b", amount), ("a", choice)]), ("default", .null)]
    ∃ definition, ofJson json = .ok definition ∧ ∀ heap : Heap,
      let made := definition.toValue heap
      ∃ again, ofJson (made.1.toJson made.2) = .ok again ∧ definition.Equal again := by
  intro amount choice json
  obtain ⟨definition, hread⟩ : ∃ definition, ofJson json = .ok definition := ⟨_, rfl⟩
  have hamount : amount.Distinct ∧ amount.Finite := by
    constructor
    · exact .object (by decide) (List.forall_mem_cons.2 ⟨.string _, List.forall_mem_singleton.2
        (.object (by decide) (List.forall_mem_cons.2 ⟨.number _,
          List.forall_mem_singleton.2 (.number _)⟩))⟩)
    · have hnumber : ∀ n : Int, (Number.ofInt n).isFinite = true →
          (Json.number (.integer n)).Finite := fun n hn => ⟨by rintro _ ⟨⟩; exact hn, nofun⟩
      exact ⟨nofun, List.forall_mem_cons.2 ⟨⟨nofun, nofun⟩, List.forall_mem_singleton.2 ⟨nofun,
        List.forall_mem_cons.2 ⟨hnumber _ (by decide +kernel),
          List.forall_mem_singleton.2 (hnumber _ (by decide +kernel))⟩⟩⟩⟩
  have hchoice : choice.Distinct ∧ choice.Finite :=
    ⟨.object (by decide) (List.forall_mem_singleton.2 (.array (List.forall_mem_cons.2
      ⟨.string _, List.forall_mem_singleton.2 hamount.1⟩))),
      ⟨nofun, List.forall_mem_singleton.2 ⟨nofun, List.forall_mem_cons.2
        ⟨⟨nofun, nofun⟩, List.forall_mem_singleton.2 hamount.2⟩⟩⟩⟩
  have hdistinct : json.Distinct :=
    .object (by decide) (List.forall_mem_cons.2 ⟨.bool _, List.forall_mem_cons.2
      ⟨.object (by decide) (List.forall_mem_cons.2 ⟨hamount.1,
        List.forall_mem_singleton.2 hchoice.1⟩), List.forall_mem_singleton.2 .null⟩⟩)
  have hfinite : json.Finite :=
    ⟨nofun, List.forall_mem_cons.2 ⟨⟨nofun, nofun⟩, List.forall_mem_cons.2
      ⟨⟨nofun, List.forall_mem_cons.2 ⟨hamount.2, List.forall_mem_singleton.2 hchoice.2⟩⟩,
        List.forall_mem_singleton.2 ⟨nofun, nofun⟩⟩⟩⟩
  exact ⟨definition, hread, equal_ofJson_toValue hread hdistinct hfinite⟩

end Definition

end Conform
