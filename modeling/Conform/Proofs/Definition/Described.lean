import Conform.Definition.Grammar
import Conform.Proofs.Definition.Conforms
import Conform.Proofs.Definition.Layout

/-!
# What the grammar says of a draft

The definitions of which the grammar is made can be read as what they say of a draft,
before it is made a value.  The thunk with which the grammar refers to itself is read as
the layout of definitions; so the grammar as a whole says of a draft that it is laid out
as a definition, if it says it of the definitions inside.

## Main definitions

* `Node.Grammatical`: the nodes of which the grammar is made.
* `Definition.Describes`: what a definition of this kind says of a draft.

## Main results

* `Definition.describes_argument_iff`: what the grammar says of an argument.
* `Definition.describes_grammar_iff`: the grammar describes the drafts that are laid out as
  definitions.
-/

namespace Conform

/-- Drafts of a type. -/
def TypeName.Describes : TypeName → Draft → Prop
  | .string, draft => ∃ s, draft = .string s
  | .number, draft => ∃ x, draft = .number x
  | .boolean, draft => ∃ b, draft = .bool b
  | .array, draft => ∃ items, draft = .array items
  | .object, draft => ∃ members, draft = .object members
  | .function, draft => draft = .function
  | .dateTime, _ => False

/-- Members may be looked up by the words for them, where a missing one is no obstacle. -/
theorem Draft.forall_member_iff {κ : Type} {text : κ → String} (htext : Function.Injective text)
    {P : κ → Draft → Prop} (hnull : ∀ k, P k .null) {members : List (String × Draft)}
    (hnodup : (Entries.keys members).Nodup) :
    ((∀ k, P k (member members (text k))) ∧ ∀ name ∈ Entries.keys members, ∃ k, text k = name) ↔
      ∀ member ∈ members, ∃ k, member.1 = text k ∧ P k member.2 := by
  constructor
  · rintro ⟨hmember, hname⟩ ⟨name, draft⟩ hmem
    obtain ⟨k, rfl⟩ := hname name (List.mem_map_of_mem hmem)
    have hk := hmember k
    rw [member, Entries.get?_of_mem hnodup hmem] at hk
    exact ⟨k, rfl, hk⟩
  · intro h
    refine ⟨fun k => ?_, fun name hmem => ?_⟩
    · unfold member
      cases hget : Entries.get? members (text k) with
      | none => exact hnull k
      | some draft =>
        obtain ⟨other, heq, hP⟩ := h _ (Entries.mem_of_get? hget)
        rwa [htext heq]
    · obtain ⟨⟨_, draft⟩, hmember, rfl⟩ := List.mem_map.1 hmem
      obtain ⟨k, heq, -⟩ := h _ hmember
      exact ⟨k, heq.symm⟩

/-- What the keywords of a node say of a draft that is there, if it is known what the
sub-definitions say. -/
@[mk_iff]
structure Node.Asks (node : Node (Draft → Prop)) (draft : Draft) : Prop where
  kind : ∀ kind, node.kind = some kind → kind.Describes draft
  allowed : ∀ documents, node.allowed = some documents →
    ∃ text, draft = .string text ∧ Json.string text ∈ documents
  either : ∀ alternatives, node.either = some alternatives →
    ∃ alternative ∈ alternatives, alternative draft
  schema : ∀ fields, node.schema = some (.declared fields) → ∀ members, draft = .object members →
    (∀ field ∈ fields, field.2 (Draft.member members field.1)) ∧
      ∀ name ∈ Entries.keys members, name ∈ fields.map Prod.fst
  items : ∀ item, node.items = some item → (∃ items, draft = .array items ∧ ∀ i ∈ items, item i) ∨
    ∃ members, draft = .object members ∧ ∀ member ∈ members, item member.2
  custom : node.custom ≠ none → draft ≠ .array []

/-- What a node says of a draft. -/
def Node.Describes (node : Node (Draft → Prop)) (draft : Draft) : Prop :=
  (draft = .null → node.optional = true) ∧ (draft ≠ .null → node.Asks draft)

/-- A node with only such keywords as occur in the grammar. -/
structure Node.Grammatical (node : Node Definition) : Prop where
  required : node.required = none
  fallback : node.fallback = none
  moment : node.kind ≠ some .dateTime
  bounds : node.bounds = none
  require : node.require = none
  restrict : node.restrict = none
  allowed : ∀ documents, node.allowed = some documents → ∀ json ∈ documents,
    ∃ text, json = .string text
  schema : ∀ fields, node.schema = some fields →
    ∃ declared, fields = .declared declared ∧ node.kind = some .object ∧ node.strict = some true
  custom : ∀ transform, node.custom = some transform → transform = .nonEmpty

namespace Definition

/-- What a definition says of a draft, where thunks stand for the grammar. -/
def Describes : Definition → Draft → Prop :=
  fold (fun type => (Node.ofType type).Describes) (fun _ => Draft.IsDefinition) Node.Describes

theorem describes_shorthand (type : TypeName) :
    Describes (.shorthand type) = Describes (.node (.ofType type)) := by
  unfold Describes
  rw [fold_shorthand, fold_node]
  rfl

theorem describes_node (keywords : Node Definition) :
    Describes (.node keywords) = (keywords.map Describes).Describes := by
  unfold Describes
  rw [fold_node]

variable {draft : Draft}

theorem describes_optional_iff {keywords : Node Definition} (h : keywords.optional = true) :
    Describes (.node keywords) draft ↔ draft = .null ∨ (keywords.map Describes).Asks draft := by
  rw [describes_node, Node.Describes, or_iff_not_imp_left]
  exact and_iff_right fun _ => h

theorem describes_present_iff {keywords : Node Definition} (h : keywords.optional = false) :
    Describes (.node keywords) draft ↔ draft ≠ .null ∧ (keywords.map Describes).Asks draft := by
  rw [describes_node, Node.Describes]
  have hoptional : (keywords.map Describes).optional = false := h
  simp only [hoptional, Bool.false_eq_true, imp_false, ne_eq, and_congr_right_iff]
  exact fun hnull => forall_prop_of_true hnull

/-! ## Arguments -/

theorem describes_anyDefinition : Grammar.anyDefinition.Describes = Draft.IsDefinition := rfl

theorem describes_kind_iff {kind : TypeName} :
    Describes (.node { kind := some kind, optional := true }) draft ↔
      draft = .null ∨ kind.Describes draft := by
  rw [describes_optional_iff rfl]
  simp [Node.asks_iff, Node.map]

theorem describes_shorthand_iff {kind : TypeName} :
    Describes (.shorthand kind) draft ↔ kind.Describes draft := by
  have hnull : ¬ kind.Describes .null := by
    cases kind <;> simp [TypeName.Describes]
  rw [describes_shorthand, describes_present_iff rfl]
  constructor
  · exact fun h => h.2.kind kind rfl
  · intro h
    exact ⟨fun heq => hnull (heq ▸ h), by simpa [Node.asks_iff, Node.map, Node.ofType] using h⟩

theorem asks_typeName_iff {optional : Bool} :
    (Node.map Describes { Grammar.typeName with optional := optional }).Asks draft ↔
      ∃ type : TypeName, draft = .string type.text := by
  have hall : ∀ type : TypeName, type ∈ TypeName.all := by
    intro type
    cases type <;> decide
  simp only [Node.asks_iff, Node.map, Grammar.typeName, TypeName.Describes]
  constructor
  · rintro ⟨-, hallowed, -⟩
    obtain ⟨text, rfl, hmem⟩ := hallowed _ rfl
    obtain ⟨type, -, htext⟩ := List.mem_map.1 hmem
    exact ⟨type, congrArg Draft.string (Json.string.inj htext).symm⟩
  · rintro ⟨type, rfl⟩
    simp [hall]

/-- An object of definitions. -/
theorem describes_objectOf_iff :
    Describes (.node { kind := some .object, items := some Grammar.anyDefinition }) draft ↔
      ∃ fields, draft = .object fields ∧ ∀ field ∈ fields, field.2.IsDefinition := by
  rw [describes_present_iff rfl]
  simp only [Node.asks_iff, Node.map]
  constructor
  · rintro ⟨-, hkind, -, -, -, hitems, -⟩
    obtain ⟨members, rfl⟩ := hkind .object rfl
    rcases hitems _ rfl with ⟨items, ⟨⟩, -⟩ | ⟨_, ⟨⟩, hmembers⟩
    exact ⟨members, rfl, hmembers⟩
  · rintro ⟨members, rfl, hmembers⟩
    simpa [TypeName.Describes, describes_anyDefinition] using hmembers

theorem describes_fields_iff : Grammar.fields.Describes draft ↔ draft = .null ∨
    draft = .function ∨
      ∃ fields, draft = .object fields ∧ ∀ field ∈ fields, field.2.IsDefinition := by
  rw [Grammar.fields, describes_optional_iff rfl, ← describes_objectOf_iff]
  simp [Node.asks_iff, Node.map, describes_shorthand_iff, TypeName.Describes]

theorem describes_names_iff : Grammar.names.Describes draft ↔
    draft = .null ∨
      ∃ items, draft = .array items ∧ ∀ item ∈ items, ∃ name, item = .string name := by
  rw [Grammar.names, describes_optional_iff rfl]
  refine or_congr_right ?_
  simp only [Node.asks_iff, Node.map]
  constructor
  · rintro ⟨hkind, -, -, -, hitems, -⟩
    obtain ⟨items, rfl⟩ := hkind .array rfl
    rcases hitems _ rfl with ⟨_, ⟨⟩, hitems⟩ | ⟨_, ⟨⟩, -⟩
    exact ⟨items, rfl, fun item hmem => describes_shorthand_iff.1 (hitems item hmem)⟩
  · rintro ⟨items, rfl, hitems⟩
    simpa [TypeName.Describes, describes_shorthand_iff] using hitems

theorem describes_alternatives_iff : Grammar.alternatives.Describes draft ↔
    draft = .null ∨
      ∃ items, draft = .array items ∧ items ≠ [] ∧ ∀ item ∈ items, item.IsDefinition := by
  rw [Grammar.alternatives, describes_optional_iff rfl]
  refine or_congr_right ?_
  simp only [Node.asks_iff, Node.map]
  constructor
  · rintro ⟨hkind, -, -, -, hitems, hcustom⟩
    obtain ⟨items, rfl⟩ := hkind .array rfl
    rcases hitems _ rfl with ⟨_, ⟨⟩, hitems⟩ | ⟨_, ⟨⟩, -⟩
    exact ⟨items, rfl, fun heq => hcustom (by simp) (heq ▸ rfl), hitems⟩
  · rintro ⟨items, rfl, hne, hitems⟩
    simpa [TypeName.Describes, describes_anyDefinition, hne] using hitems

/-- An object whose members are named by certain words, each with a definition of its
own. -/
theorem asks_words_iff {κ : Type} {text : κ → String} (htext : Function.Injective text)
    {all : List κ} (hall : ∀ k, k ∈ all) {D : κ → Definition} (hnull : ∀ k, (D k).Describes .null)
    (hnodup : ∀ members, draft = .object members → (Entries.keys members).Nodup)
    {optional : Bool} :
    (Node.map Describes
      { optional := optional, kind := some .object, strict := some true
        schema := some (.declared (all.map fun k => (text k, D k))) }).Asks draft ↔
      ∃ members, draft = .object members ∧
        ∀ member ∈ members, ∃ k, member.1 = text k ∧ (D k).Describes member.2 := by
  simp only [Node.asks_iff, Node.map]
  constructor
  · rintro ⟨hkind, -, -, hschema, -⟩
    obtain ⟨members, rfl⟩ := hkind .object rfl
    refine ⟨members, rfl, (Draft.forall_member_iff htext hnull (hnodup members rfl)).1 ?_⟩
    simpa [hall] using hschema _ rfl members rfl
  · rintro ⟨members, rfl, hmembers⟩
    obtain ⟨hwords, hnames⟩ := (Draft.forall_member_iff htext hnull (hnodup members rfl)).2 hmembers
    refine ⟨fun kind h => Option.some.inj h ▸ ⟨members, rfl⟩, by simp, by simp, ?_, by simp,
      by simp⟩
    rintro _ ⟨⟩ _ ⟨⟩
    refine ⟨fun field hfield => ?_, fun name hname => ?_⟩
    · simp only [List.map_map, List.mem_map] at hfield
      obtain ⟨k, -, rfl⟩ := hfield
      exact hwords k
    · obtain ⟨k, rfl⟩ := hnames name hname
      simpa using ⟨k, hall k, rfl⟩

theorem describes_bounds_iff
    (hnodup : ∀ members, draft = .object members → (Entries.keys members).Nodup) :
    Grammar.bounds.Describes draft ↔ draft = .null ∨ Keyword.bounds.Suits draft := by
  have hall : ∀ comparator : Comparator, comparator ∈ Comparator.all := by
    intro comparator
    cases comparator <;> decide
  have htext : Function.Injective Comparator.text := by
    intro comparator other h
    have hread := Comparator.ofText_text comparator
    rw [h, Comparator.ofText_text] at hread
    exact (Except.ok.inj hread).symm
  rw [Grammar.bounds, describes_optional_iff rfl,
    asks_words_iff htext hall (fun _ => describes_kind_iff.2 (.inl rfl)) hnodup]
  simp only [describes_kind_iff]
  rfl

/-- **What the grammar says of an argument**: it may be missing, and else it must suit
and hold definitions where these belong. -/
theorem describes_argument_iff (keyword : Keyword)
    (hnodup : ∀ members, draft = .object members → (Entries.keys members).Nodup) :
    (Grammar.argument keyword).Describes draft ↔ draft = .null ∨
      keyword.Suits draft ∧ ∀ part, keyword.Embeds draft part → part.IsDefinition := by
  rw [Keyword.forall_embeds_iff]
  cases keyword with
  | optional | required | strict =>
    exact describes_kind_iff.trans (by simp [TypeName.Describes, Keyword.Suits])
  | default =>
    exact (describes_optional_iff rfl).trans (by simp [Node.asks_iff, Node.map, Keyword.Suits])
  | type =>
    exact (describes_optional_iff rfl).trans
      (or_congr_right (by simp [asks_typeName_iff, Keyword.Suits]))
  | schema | properties =>
    refine describes_fields_iff.trans (or_congr_right ?_)
    constructor
    · rintro (rfl | ⟨fields, rfl, hfields⟩)
      · exact ⟨.inl rfl, by rintro _ ⟨⟩⟩
      · exact ⟨.inr ⟨fields, rfl⟩, by rintro _ ⟨⟩; exact hfields⟩
    · rintro ⟨rfl | ⟨fields, rfl⟩, hfields⟩
      · exact .inl rfl
      · exact .inr ⟨fields, rfl, hfields fields rfl⟩
  | items =>
    refine (describes_optional_iff rfl).trans ?_
    simp [Node.asks_iff, Node.map, Keyword.Suits, describes_anyDefinition, or_iff_not_imp_left]
  | oneOf | enumeration =>
    exact describes_kind_iff.trans (by simp [TypeName.Describes, Keyword.Suits])
  | bounds => exact (describes_bounds_iff hnodup).trans (by simp)
  | either =>
    refine describes_alternatives_iff.trans (or_congr_right ?_)
    constructor
    · rintro ⟨items, rfl, hne, hitems⟩
      exact ⟨⟨items, rfl, hne⟩, by rintro _ ⟨⟩; exact hitems⟩
    · rintro ⟨⟨items, rfl, hne⟩, hitems⟩
      exact ⟨items, rfl, hne, hitems items rfl⟩
  | require | restrict =>
    exact describes_names_iff.trans (or_congr_right (by simp [Keyword.Suits]))
  | custom => exact describes_kind_iff.trans (by simp [TypeName.Describes, Keyword.Suits])

/-- **The grammar describes the drafts that are laid out as definitions.** -/
theorem describes_grammar_iff
    (hnodup : ∀ members, draft = .object members → (Entries.keys members).Nodup)
    (hparts : ∀ members, draft = .object members → ∀ member ∈ members,
      ∀ inner, member.2 = .object inner → (Entries.keys inner).Nodup) :
    grammar.Describes draft ↔ draft.IsDefinition := by
  have hall : ∀ keyword : Keyword, keyword ∈ Keyword.all := by
    intro keyword
    cases keyword <;> decide
  have hnull : ∀ keyword : Keyword, (Grammar.argument keyword).Describes .null :=
    fun keyword => (describes_argument_iff keyword (by rintro _ ⟨⟩)).2 (.inl rfl)
  have hkeywords : Describes (.node Grammar.keywords) draft ↔ ∃ members, draft = .object members ∧
      ∀ member ∈ members, ∃ keyword : Keyword, member.1 = keyword.text ∧
        (Grammar.argument keyword).Describes member.2 := by
    refine (describes_present_iff rfl).trans ?_
    rw [Grammar.keywords, asks_words_iff Keyword.text_injective hall hnull hnodup]
    refine and_iff_right_of_imp ?_
    rintro ⟨members, rfl, -⟩ ⟨⟩
  have hname : Describes (.node Grammar.typeName) draft ↔
      ∃ type : TypeName, draft = .string type.text := by
    refine (describes_present_iff rfl).trans ?_
    rw [asks_typeName_iff]
    refine and_iff_right_of_imp ?_
    rintro ⟨type, rfl⟩ ⟨⟩
  have hgrammar : grammar.Describes draft ↔ draft ≠ .null ∧ (draft = .function ∨
      Describes (.node Grammar.typeName) draft ∨ Describes (.node Grammar.keywords) draft) := by
    rw [grammar, describes_present_iff rfl]
    simp [Node.asks_iff, Node.map, describes_shorthand_iff, TypeName.Describes]
  rw [hgrammar, hname, hkeywords]
  constructor
  · rintro ⟨-, rfl | ⟨type, rfl⟩ | ⟨members, rfl, hmembers⟩⟩
    · exact .function
    · exact .type type
    · have harguments : ∀ member ∈ members, ∃ keyword : Keyword, member.1 = keyword.text ∧
          (member.2 = .null ∨ keyword.Suits member.2 ∧
            ∀ part, keyword.Embeds member.2 part → part.IsDefinition) := by
        intro member hmem
        obtain ⟨keyword, htext, hargument⟩ := hmembers member hmem
        exact ⟨keyword, htext,
          (describes_argument_iff keyword (hparts members rfl member hmem)).1 hargument⟩
      refine .keywords (fun member hmem => ?_) fun keyword argument part hmem hpart => ?_
      · obtain ⟨keyword, htext, hargument⟩ := harguments member hmem
        exact ⟨keyword, htext, hargument.imp_right And.left⟩
      · obtain ⟨other, htext, hargument⟩ := harguments _ hmem
        obtain rfl := Keyword.text_injective htext
        rcases hargument with hnull | ⟨-, hargument⟩
        · obtain rfl : argument = .null := hnull
          cases hpart
          contradiction
        · exact hargument part hpart
  · rintro (_ | ⟨type⟩ | ⟨hsuits, hdefinitions⟩)
    · exact ⟨by rintro ⟨⟩, .inl rfl⟩
    · exact ⟨by rintro ⟨⟩, .inr (.inl ⟨type, rfl⟩)⟩
    · refine ⟨by rintro ⟨⟩, .inr (.inr ⟨_, rfl, fun member hmem => ?_⟩)⟩
      obtain ⟨keyword, htext, hargument⟩ := hsuits member hmem
      refine ⟨keyword, htext,
        (describes_argument_iff keyword (hparts _ rfl member hmem)).2 ?_⟩
      refine hargument.imp_right fun hargument => ⟨hargument, fun part => ?_⟩
      exact hdefinitions keyword member.2 part (htext ▸ hmem)

end Definition

end Conform
