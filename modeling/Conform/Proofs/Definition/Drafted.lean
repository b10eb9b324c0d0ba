import Conform.Definition.Lower
import Conform.Proofs.Definition.Conforms
import Conform.Proofs.Definition.Layout
import Conform.Proofs.Definition.Parts
import Conform.Proofs.Value.Denotation

/-!
# Drafts of definitions

What a definition is written out as does not hang on the heap: it stands for a draft that is
computed from the definition alone.  The draft is laid out as a definition unless an
alternative is asked for and none is given, at some place that can be seen without asking the
host for anything.

## Main definitions

* `Definition.draft`: the contents of the value of a definition.
* `Definition.Visible`: the definitions that can be seen in a definition.

## Main results

* `Definition.makes_toValue`: the value of a definition stands for its draft.
* `Definition.isDefinition_draft_iff`: when the draft is laid out as a definition.
-/

namespace Conform

/-! ## Writing out -/

namespace Node

/-- The contents of the value of a default. -/
def draftFallback : Fallback → Draft
  | .literal json => .ofJson json
  | .produced _ => .function

/-- The contents of the value of fields. -/
def draftFields : Fields Draft → Draft
  | .declared fields => .object (Entries.collect fields)
  | .deferred _ => .function

/-- The contents of the value of bounds. -/
def draftBounds (bounds : Bounds) : Draft :=
  .object <| Entries.collect <| bounds.toList.map fun (comparator, bound) =>
    (comparator.text, .number bound)

/-- The contents of the value of names. -/
def draftNames (names : List String) : Draft := .array (names.map Draft.string)

/-- The contents of the value of a keyword's argument, if the node sets the keyword.  What has
two names is written out under the first. -/
def argument (node : Node Draft) : Keyword → Option Draft
  | .optional => if node.optional then some (.bool true) else none
  | .required => node.required.map Draft.bool
  | .default => node.fallback.map draftFallback
  | .type => node.kind.map fun kind => .string kind.text
  | .schema => node.schema.map draftFields
  | .items => node.items
  | .oneOf => node.allowed.map fun allowed => .array (Draft.ofItems allowed)
  | .bounds => node.bounds.map draftBounds
  | .either => node.either.map Draft.array
  | .strict => node.strict.map Draft.bool
  | .require => node.require.map draftNames
  | .restrict => node.restrict.map draftNames
  | .custom => node.custom.map fun _ => .function
  | .properties | .enumeration => none

/-- The members of the value of a node. -/
def members (node : Node Draft) : List (String × Draft) :=
  [Keyword.optional, .required, .default, .type, .schema, .items, .oneOf, .bounds, .either, .strict,
    .require, .restrict, .custom].filterMap fun keyword =>
      (node.argument keyword).map fun argument => (keyword.text, argument)

/-- The contents of the value of a node, when those of its sub-definitions are known. -/
def draft (node : Node Draft) : Draft := .object node.members

end Node

/-- The contents of the value of a definition. -/
def Definition.draft : Definition → Draft :=
  fold (fun type => .string type.text) (fun _ => .function) Node.draft

/-! ## The value stands for the draft -/

namespace HeapM

theorem MakesAll.mapM {ms : List (HeapM Value)} {drafts : List Draft}
    (h : List.Forall₂ Makes ms drafts) : MakesAll (ms.mapM id) drafts := by
  induction h with
  | nil => exact .nil
  | cons hm _ ih =>
    rw [List.mapM_cons]
    exact MakesAll.cons hm ih

theorem MakesEntries.mapM {entries : List (String × HeapM Value)} {members : List (String × Draft)}
    (h : Entries.Alongside Makes entries members) :
    MakesEntries (entries.mapM fun entry => return (entry.1, ← entry.2)) members := by
  induction h with
  | nil => exact .nil
  | @cons entry member _ _ hentry _ ih =>
    obtain ⟨name, m⟩ := entry
    obtain ⟨_, draft⟩ := member
    obtain ⟨rfl, hm⟩ := hentry
    simp only [List.mapM_cons, bind_assoc, pure_bind]
    exact MakesEntries.cons hm ih

end HeapM

namespace Node

open HeapM

theorem makes_lowerEntries {entries : List (String × HeapM Value)}
    {members : List (String × Draft)} (h : Entries.Alongside Makes entries members) :
    Makes (lowerEntries entries) (.object (Entries.collect members)) :=
  .object (.mapM h)

theorem makes_lowerFallback (fallback : Fallback) :
    Makes (lowerFallback fallback) (draftFallback fallback) := by
  cases fallback with
  | literal json => exact makes_ofJson json
  | produced code => exact makes_newFunction _

theorem makes_flag (b : Bool) : Makes (pure (.bool b)) (.bool b) := .pure fun _ => .bool b

theorem makes_lowerNames (names : List String) : Makes (lowerNames names) (draftNames names) := by
  have hnames : MakesAll (pure (names.map Value.string)) (names.map Draft.string) :=
    fun heap => ⟨.refl heap, forall₂_map_of_mem fun name _ => .string name⟩
  exact .array hnames

theorem makes_lowerBounds (bounds : Bounds) : Makes (lowerBounds bounds) (draftBounds bounds) := by
  have hmembers : MakesEntries
      (pure (bounds.toList.map fun bound => (bound.1.text, Value.number bound.2)))
      (bounds.toList.map fun bound => (bound.1.text, Draft.number bound.2)) :=
    fun heap => ⟨.refl heap, forall₂_map_of_mem fun bound _ => ⟨rfl, .number bound.2⟩⟩
  exact .object hmembers

/-- Values and drafts of the arguments that are given. -/
theorem alongside_filterMap {α β : Type} {R : α → β → Prop} {xs : List (Keyword × Option α)}
    {f : Keyword → Option β} {keywords : List Keyword}
    (h : List.Forall₂ (fun x keyword => x.1 = keyword ∧ Option.Rel R x.2 (f keyword)) xs
      keywords) :
    Entries.Alongside R
      (xs.filterMap fun (keyword, x) => x.map fun x => (keyword.text, x))
      (keywords.filterMap fun keyword => (f keyword).map fun y => (keyword.text, y)) := by
  induction h with
  | nil => exact .nil
  | @cons x keyword _ _ hx _ ih =>
    obtain ⟨_, x⟩ := x
    obtain ⟨rfl, hx⟩ := hx
    simp only [List.filterMap_cons]
    generalize f _ = y at hx
    cases hx with
    | none => exact ih
    | some hxy => exact .cons ⟨rfl, hxy⟩ ih

theorem rel_map {α β γ : Type} {R : β → γ → Prop} {f : α → β} {g : α → γ} {a : Option α}
    (h : ∀ x, a = some x → R (f x) (g x)) : Option.Rel R (a.map f) (a.map g) := by
  cases a with
  | none => exact .none
  | some x => exact .some (h x rfl)

/-- No keyword has two arguments. -/
theorem nodup_keys_members (node : Node Draft) : (Entries.keys node.members).Nodup :=
  Entries.nodup_keys_filterMap (by decide)

/-- The value of a node stands for its draft, if those of its parts do. -/
theorem makes_lower {keywords : Node Definition}
    (hparts : ∀ part ∈ keywords.parts, Makes part.toValue part.draft) :
    Makes (keywords.map Definition.toValue).lower (keywords.map Definition.draft).draft := by
  rw [draft, ← Entries.collect_of_nodup (nodup_keys_members _)]
  refine makes_lowerEntries (alongside_filterMap ?_)
  refine .cons ⟨rfl, ?_⟩ <| .cons ⟨rfl, ?_⟩ <| .cons ⟨rfl, ?_⟩ <| .cons ⟨rfl, ?_⟩ <|
    .cons ⟨rfl, ?_⟩ <| .cons ⟨rfl, ?_⟩ <| .cons ⟨rfl, ?_⟩ <| .cons ⟨rfl, ?_⟩ <|
    .cons ⟨rfl, ?_⟩ <| .cons ⟨rfl, ?_⟩ <| .cons ⟨rfl, ?_⟩ <| .cons ⟨rfl, ?_⟩ <|
    .cons ⟨rfl, ?_⟩ .nil
  · cases hoptional : keywords.optional with
    | true => simpa [map, argument, hoptional] using makes_flag true
    | false => simp [map, argument, hoptional]
  · exact rel_map fun b _ => makes_flag b
  · exact rel_map fun fallback _ => makes_lowerFallback fallback
  · exact rel_map fun kind _ => .pure fun _ => .string kind.text
  · simp only [map, argument, Option.map_map]
    refine rel_map fun fields hschema => ?_
    cases fields with
    | declared fields =>
      exact makes_lowerEntries (forall₂_map_of_mem fun field hfield =>
        ⟨rfl, hparts field.2 (mem_parts_of_field hschema hfield)⟩)
    | deferred code => exact makes_newFunction _
  · exact rel_map fun item hitems => hparts item (mem_parts_of_item hitems)
  · exact rel_map fun allowed _ => .array (makes_ofItems allowed)
  · exact rel_map fun bounds _ => makes_lowerBounds bounds
  · simp only [map, argument, Option.map_map]
    exact rel_map fun alternatives heither => .array (.mapM (forall₂_map_of_mem fun d hd =>
      hparts d (mem_parts_of_alternative heither hd)))
  · exact rel_map fun b _ => makes_flag b
  · exact rel_map fun names _ => makes_lowerNames names
  · exact rel_map fun names _ => makes_lowerNames names
  · exact rel_map fun transform _ => makes_newFunction _

end Node

namespace Definition

theorem draft_node (keywords : Node Definition) :
    draft (.node keywords) = (keywords.map draft).draft := by
  unfold draft
  rw [fold_node]

theorem toValue_node (keywords : Node Definition) :
    toValue (.node keywords) = (keywords.map toValue).lower := by
  unfold toValue
  rw [fold_node]

/-- **The value of a definition stands for its draft.** -/
theorem makes_toValue (definition : Definition) : definition.toValue.Makes definition.draft := by
  induction definition with
  | shorthand type => exact .pure fun _ => .string type.text
  | deferred thunk => exact HeapM.makes_newFunction _
  | node keywords ih =>
    rw [toValue_node, draft_node]
    exact Node.makes_lower ih

end Definition

/-! ## The layout of the draft -/

namespace Node

theorem mem_members_iff {node : Node Draft} {name : String} {draft : Draft} :
    (name, draft) ∈ node.members ↔
      ∃ keyword : Keyword, keyword.text = name ∧ node.argument keyword = some draft := by
  simp only [members, List.mem_filterMap, Option.map_eq_some_iff, Prod.mk.injEq]
  constructor
  · rintro ⟨keyword, -, _, hargument, htext, rfl⟩
    exact ⟨keyword, htext, hargument⟩
  · rintro ⟨keyword, htext, hargument⟩
    refine ⟨keyword, ?_, draft, hargument, htext, rfl⟩
    cases keyword with
    | properties | enumeration => cases hargument
    | _ => decide

/-- The draft of a node is laid out as a definition if all its arguments are suitable. -/
theorem isDefinition_draft_iff_argument {node : Node Draft} :
    node.draft.IsDefinition ↔ ∀ (keyword : Keyword) draft, node.argument keyword = some draft →
      (draft = .null ∨ keyword.Suits draft) ∧
        ∀ part, keyword.Embeds draft part → part.IsDefinition := by
  constructor
  · rintro (_ | _ | ⟨hsuits, hdefinitions⟩) keyword draft hargument
    have hmember := mem_members_iff.2 ⟨keyword, rfl, hargument⟩
    obtain ⟨other, htext, hdraft⟩ := hsuits _ hmember
    obtain rfl := Keyword.text_injective htext
    exact ⟨hdraft, fun part => hdefinitions keyword draft part hmember⟩
  · intro h
    refine .keywords ?_ fun keyword draft part hmember hpart => ?_
    · rintro ⟨name, draft⟩ hmember
      obtain ⟨keyword, htext, hargument⟩ := mem_members_iff.1 hmember
      exact ⟨keyword, htext.symm, (h keyword draft hargument).1⟩
    · obtain ⟨other, htext, hargument⟩ := mem_members_iff.1 hmember
      obtain rfl := Keyword.text_injective htext
      exact (h other draft hargument).2 part hpart

/-- **The draft of a node is laid out as a definition** if those of its parts are and no
alternative is asked for where none is given. -/
theorem isDefinition_draft_iff {node : Node Draft} : node.draft.IsDefinition ↔
    (∀ fields, node.schema = some (.declared fields) →
      ∀ field ∈ Entries.collect fields, field.2.IsDefinition) ∧
    (∀ item, node.items = some item → item ≠ .null → item.IsDefinition) ∧
    ∀ alternatives, node.either = some alternatives →
      alternatives ≠ [] ∧ ∀ alternative ∈ alternatives, alternative.IsDefinition := by
  rw [isDefinition_draft_iff_argument]
  constructor
  · intro h
    refine ⟨fun fields hschema field hfield => ?_, fun item hitems hnull => ?_,
      fun alternatives heither => ?_⟩
    · exact (h .schema (draftFields (.declared fields)) (by simp [argument, hschema])).2 _
        (.field (.inl rfl) hfield)
    · exact (h .items item hitems).2 item (.item hnull)
    · obtain ⟨hsuits, hdefinitions⟩ := h .either (.array alternatives) (by simp [argument, heither])
      refine ⟨?_, fun alternative hmem => hdefinitions _ (.alternative hmem)⟩
      obtain hnull | ⟨_, heq, hne⟩ := hsuits
      · cases hnull
      · cases heq
        exact hne
  · rintro ⟨hfields, hitems, heither⟩ keyword draft hargument
    -- Only three keywords have definitions in their arguments.
    rw [Keyword.forall_embeds_iff]
    cases keyword with
    | properties | enumeration => cases hargument
    | optional =>
      simp only [argument, Option.ite_none_right_eq_some, Option.some.injEq] at hargument
      exact ⟨.inr ⟨true, hargument.2.symm⟩, trivial⟩
    | required | strict =>
      obtain ⟨b, -, rfl⟩ := Option.map_eq_some_iff.1 hargument
      exact ⟨.inr ⟨b, rfl⟩, trivial⟩
    | default => exact ⟨.inr trivial, trivial⟩
    | type =>
      obtain ⟨kind, -, rfl⟩ := Option.map_eq_some_iff.1 hargument
      exact ⟨.inr ⟨kind, rfl⟩, trivial⟩
    | schema =>
      obtain ⟨fields, hschema, rfl⟩ := Option.map_eq_some_iff.1 hargument
      cases fields with
      | declared fields =>
        refine ⟨.inr (.inr ⟨_, rfl⟩), ?_⟩
        rintro _ ⟨⟩
        exact hfields fields hschema
      | deferred code => exact ⟨.inr (.inl rfl), nofun⟩
    | items => exact ⟨.inr trivial, hitems draft hargument⟩
    | oneOf =>
      obtain ⟨allowed, -, rfl⟩ := Option.map_eq_some_iff.1 hargument
      exact ⟨.inr ⟨_, rfl⟩, trivial⟩
    | bounds =>
      obtain ⟨bounds, -, rfl⟩ := Option.map_eq_some_iff.1 hargument
      refine ⟨.inr ⟨_, rfl, fun bound hbound => ?_⟩, trivial⟩
      obtain ⟨⟨comparator, x⟩, -, rfl⟩ := List.mem_map.1 (Entries.mem_of_mem_collect hbound)
      exact ⟨comparator, rfl, .inr ⟨x, rfl⟩⟩
    | either =>
      obtain ⟨alternatives, hsome, rfl⟩ := Option.map_eq_some_iff.1 hargument
      obtain ⟨hne, hdefinitions⟩ := heither alternatives hsome
      refine ⟨.inr ⟨alternatives, rfl, hne⟩, ?_⟩
      rintro _ ⟨⟩
      exact hdefinitions
    | require | restrict =>
      obtain ⟨names, -, rfl⟩ := Option.map_eq_some_iff.1 hargument
      exact ⟨.inr ⟨_, rfl, by simp⟩, trivial⟩
    | custom =>
      obtain ⟨transform, -, rfl⟩ := Option.map_eq_some_iff.1 hargument
      exact ⟨.inr rfl, trivial⟩

end Node

namespace Definition

/-- The definitions that can be seen in a definition without asking the host: the definition
itself and what can be seen in its fields, its items and its alternatives.  Of fields of the
same name only the last can be seen. -/
inductive Visible : Definition → Definition → Prop where
  | refl {definition : Definition} : Visible definition definition
  | field {keywords : Node Definition} {before after : List (String × Definition)} {name : String}
      {field seen : Definition} :
      keywords.schema = some (.declared (before ++ (name, field) :: after)) →
      name ∉ Entries.keys after → Visible field seen → Visible (.node keywords) seen
  | item {keywords : Node Definition} {item seen : Definition} : keywords.items = some item →
      Visible item seen → Visible (.node keywords) seen
  | alternative {keywords : Node Definition} {alternatives : List Definition}
      {alternative seen : Definition} : keywords.either = some alternatives →
      alternative ∈ alternatives → Visible alternative seen → Visible (.node keywords) seen

/-- Where alternatives are asked for, in a node that can be seen, some are given. -/
def Furnished (definition : Definition) : Prop :=
  ∀ keywords, definition.Visible (.node keywords) → keywords.either ≠ some []

theorem furnished_node_iff {keywords : Node Definition} :
    Furnished (.node keywords) ↔ keywords.either ≠ some [] ∧
      (∀ fields, keywords.schema = some (.declared fields) →
        ∀ field ∈ Entries.collect fields, Furnished field.2) ∧
      (∀ item, keywords.items = some item → Furnished item) ∧
      ∀ alternatives, keywords.either = some alternatives →
        ∀ alternative ∈ alternatives, Furnished alternative := by
  constructor
  · intro h
    refine ⟨h keywords .refl, ?_, fun _ hitems seen hseen => h seen (.item hitems hseen),
      fun _ heither _ hmem seen hseen => h seen (.alternative heither hmem hseen)⟩
    rintro _ hschema ⟨name, field⟩ hfield seen hseen
    obtain ⟨before, after, rfl, hlast⟩ := Entries.mem_collect_iff.1 hfield
    exact h seen (.field hschema hlast hseen)
  · rintro ⟨hself, hfields, hitem, halternatives⟩ seen hseen
    cases hseen with
    | refl => exact hself
    | field hschema hlast hseen =>
      exact hfields _ hschema _ (Entries.mem_collect_iff.2 ⟨_, _, rfl, hlast⟩) seen hseen
    | item hitems hseen => exact hitem _ hitems seen hseen
    | alternative heither hmem hseen => exact halternatives _ heither _ hmem seen hseen

theorem draft_ne_null (definition : Definition) : definition.draft ≠ .null := by
  cases definition with
  | node keywords => rw [draft_node]; nofun
  | _ => nofun

/-- **The draft of a definition is laid out as a definition** unless alternatives are asked
for and none is given, in a node that can be seen. -/
theorem isDefinition_draft_iff (definition : Definition) :
    definition.draft.IsDefinition ↔ definition.Furnished := by
  induction definition with
  | shorthand type =>
    refine iff_of_true (.type type) ?_
    rintro keywords ⟨⟩
  | deferred thunk =>
    refine iff_of_true .function ?_
    rintro keywords ⟨⟩
  | node keywords ih =>
    have hfields : (∀ fields, (keywords.map draft).schema = some (.declared fields) →
          ∀ field ∈ Entries.collect fields, field.2.IsDefinition) ↔
        ∀ fields, keywords.schema = some (.declared fields) →
          ∀ field ∈ Entries.collect fields, Furnished field.2 := by
      rw [Node.forall_schema_map]
      refine forall₂_congr fun fields hschema => ?_
      rw [show fields.map (fun field => (field.1, field.2.draft)) =
        Entries.mapValues draft fields from rfl, Entries.collect_mapValues, Entries.mapValues,
        List.forall_mem_map]
      exact forall₂_congr fun field hfield =>
        ih _ (Node.mem_parts_of_field hschema (Entries.mem_of_mem_collect hfield))
    have hitems : (∀ item, (keywords.map draft).items = some item → item ≠ .null →
          item.IsDefinition) ↔ ∀ item, keywords.items = some item → Furnished item := by
      rw [Node.forall_items_map]
      exact forall₂_congr fun item hitems =>
        (forall_prop_of_true item.draft_ne_null).trans (ih _ (Node.mem_parts_of_item hitems))
    have heither : (∀ alternatives, (keywords.map draft).either = some alternatives →
          alternatives ≠ [] ∧ ∀ alternative ∈ alternatives, alternative.IsDefinition) ↔
        keywords.either ≠ some [] ∧ ∀ alternatives, keywords.either = some alternatives →
          ∀ alternative ∈ alternatives, Furnished alternative := by
      cases hsome : keywords.either with
      | none => simp [Node.map, hsome]
      | some alternatives =>
        simp only [Node.map, hsome, Option.map_some, Option.some.injEq, forall_eq',
          List.map_eq_nil_iff, ne_eq, List.forall_mem_map]
        exact and_congr_right fun _ => forall₂_congr fun alternative hmem =>
          ih _ (Node.mem_parts_of_alternative hsome hmem)
    rw [draft_node, Node.isDefinition_draft_iff, hfields, hitems, heither, furnished_node_iff]
    constructor
    · rintro ⟨hfurnished, hitem, hnonempty, halternatives⟩
      exact ⟨hnonempty, hfurnished, hitem, halternatives⟩
    · rintro ⟨hnonempty, hfurnished, hitem, halternatives⟩
      exact ⟨hfurnished, hitem, hnonempty, halternatives⟩

end Definition

end Conform
