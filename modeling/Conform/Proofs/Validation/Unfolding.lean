import Conform.Proofs.Definition.Described
import Conform.Validation.Context

/-!
# Unfolding the grammar

The grammar refers to itself, and nothing in it gets smaller as it is unfolded.  What gets
smaller is what is checked against it: the definitions inside a container are met one step
further down.  At one place no more than three definitions are under way, namely the grammar,
the argument of a keyword and a definition that is such an argument.

So a statement about definitions holds of the grammar if it passes from the parts of a node to
the node, where alternatives have the place in common with the node and all other parts are
further down, and if it passes through the thunk and from a node to the name of a type.

## Main definitions

* `Node.PartsMeet`: the parts of a node, where they are met.
* `Definition.Passable`: statements that pass from parts to the whole.

## Main results

* `Definition.Passable.grammar`: a statement that does so holds of the grammar.
-/

namespace Conform

/-- A statement holds of the parts of a node: of alternatives at this place, and of all else
anywhere lower. -/
structure Node.PartsMeet (J : Nat → Nat → Nat → Definition → Prop) (depth height room : Nat)
    (keywords : Node Definition) : Prop where
  either : ∀ alternatives, keywords.either = some alternatives →
    ∀ d ∈ alternatives, J depth height room d
  fields : ∀ fields, keywords.schema = some (.declared fields) → ∀ field ∈ fields,
    ∀ lower < height, J depth lower maxNesting field.2
  items : ∀ item, keywords.items = some item → ∀ lower < height, J depth lower maxNesting item

namespace Definition

/-- A statement about definitions, given a depth, a height and some room, that passes from the
parts of a node to the node.  The node takes up a definition, and so some depth and room. -/
structure Passable (J : Nat → Nat → Nat → Definition → Prop) : Prop where
  mono : ∀ {depth height less room definition}, less ≤ room → J depth height less definition →
    J depth height room definition
  node : ∀ {depth height room keywords}, keywords.Grammatical →
    keywords.PartsMeet J depth height room → J (depth + 1) height (room + 1) (.node keywords)
  shorthand : ∀ {depth height room kind}, J (depth + 1) height room (.node (.ofType kind)) →
    J (depth + 1) height room (.shorthand kind)
  thunk : ∀ {depth height room}, J (depth + 1) height room grammar →
    J (depth + 1) height room Grammar.anyDefinition

namespace Passable

variable {J : Nat → Nat → Nat → Definition → Prop} {depth height room : Nat}

/-- A node without parts only needs depth and room for itself. -/
theorem leaf (hJ : Passable J) {keywords : Node Definition} (hnode : keywords.Grammatical)
    (heither : keywords.either = none) (hschema : keywords.schema = none)
    (hitems : keywords.items = none) (hdepth : 0 < depth) (hroom : 0 < room) :
    J depth height room (.node keywords) := by
  obtain ⟨depth, rfl⟩ := Nat.exists_eq_add_of_lt hdepth
  rw [Nat.zero_add]
  refine hJ.mono hroom (hJ.node hnode ⟨?_, ?_, ?_⟩)
  · rw [heither]; nofun
  · rw [hschema]; nofun
  · rw [hitems]; nofun

theorem kind (hJ : Passable J) {kind : TypeName} {optional : Bool} (hmoment : kind ≠ .dateTime)
    (hdepth : 0 < depth) (hroom : 0 < room) :
    J depth height room (.node { kind := some kind, optional := optional }) :=
  hJ.leaf ⟨rfl, rfl, fun h => hmoment (Option.some.inj h), rfl, rfl, rfl, nofun, nofun, nofun⟩
    rfl rfl rfl hdepth hroom

/-- The name of a type is as the node with this type. -/
theorem typeShorthand (hJ : Passable J) {kind : TypeName} (hmoment : kind ≠ .dateTime)
    (hdepth : 0 < depth) (hroom : 0 < room) : J depth height room (.shorthand kind) := by
  have hnode : J depth height room (.node (.ofType kind)) := hJ.kind hmoment hdepth hroom
  obtain ⟨depth, rfl⟩ := Nat.exists_eq_add_of_lt hdepth
  exact hJ.shorthand hnode

theorem typeName (hJ : Passable J) {optional : Bool} (hdepth : 0 < depth) (hroom : 0 < room) :
    J depth height room (.node { Grammar.typeName with optional := optional }) := by
  refine hJ.leaf ⟨rfl, rfl, nofun, rfl, rfl, rfl, ?_, nofun, nofun⟩ rfl rfl rfl hdepth hroom
  rintro _ ⟨⟩ draft hmem
  obtain ⟨type, -, rfl⟩ := List.mem_map.1 hmem
  exact ⟨type.text, rfl⟩

/-- **The arguments of keywords**, if definitions are dealt with: those in them further down,
and an argument that is itself a definition at the same place. -/
theorem argument (hJ : Passable J) (hany : ∀ lower ≤ height, ∀ depth, 3 * lower + 2 ≤ depth →
      J depth lower 2 Grammar.anyDefinition) (keyword : Keyword)
    (hdepth : 3 * height + 3 ≤ depth) : J depth height 3 (Grammar.argument keyword) := by
  obtain ⟨depth, rfl⟩ := Nat.exists_eq_add_of_le' (Nat.le_trans (Nat.le_add_left 3 _) hdepth)
  have hbelow : ∀ {less}, 3 * height ≤ less + 1 → ∀ lower < height,
      J less lower maxNesting Grammar.anyDefinition :=
    fun hless lower hlower => hJ.mono (by decide) (hany lower (Nat.le_of_lt hlower) _ (by omega))
  cases keyword with
  | optional | required | strict | oneOf | enumeration | custom =>
    exact hJ.kind nofun (by omega) (by decide)
  | default =>
    exact hJ.leaf ⟨rfl, rfl, nofun, rfl, rfl, rfl, nofun, nofun, nofun⟩ rfl rfl rfl (by omega)
      (by decide)
  | type => exact hJ.typeName (by omega) (by decide)
  | schema | properties =>
    refine hJ.node ⟨rfl, rfl, nofun, rfl, rfl, rfl, nofun, nofun, nofun⟩ ⟨?_, nofun, nofun⟩
    rintro _ ⟨⟩ d hd
    rcases List.mem_cons.1 hd with rfl | hd
    · exact hJ.typeShorthand nofun (by omega) (by decide)
    · obtain rfl := List.mem_singleton.1 hd
      refine hJ.node ⟨rfl, rfl, nofun, rfl, rfl, rfl, nofun, nofun, nofun⟩ ⟨nofun, nofun, ?_⟩
      rintro _ ⟨⟩
      exact hbelow (by omega)
  | items =>
    refine hJ.node ⟨rfl, rfl, nofun, rfl, rfl, rfl, nofun, nofun, nofun⟩ ⟨?_, nofun, nofun⟩
    rintro _ ⟨⟩ d hd
    obtain rfl := List.mem_singleton.1 hd
    exact hany height (Nat.le_refl _) _ (by omega)
  | bounds =>
    refine hJ.mono (show 1 ≤ 3 by decide)
      (hJ.node ⟨rfl, rfl, nofun, rfl, rfl, rfl, nofun, ?_, nofun⟩ ⟨nofun, ?_, nofun⟩)
    · rintro _ ⟨⟩
      exact ⟨_, rfl, rfl, rfl⟩
    · rintro _ ⟨⟩ field hfield lower -
      obtain ⟨comparator, -, rfl⟩ := List.mem_map.1 hfield
      exact hJ.kind nofun (by omega) (by decide)
  | either =>
    refine hJ.mono (show 1 ≤ 3 by decide)
      (hJ.node ⟨rfl, rfl, nofun, rfl, rfl, rfl, nofun, nofun, ?_⟩ ⟨nofun, nofun, ?_⟩)
    · rintro _ ⟨⟩
      rfl
    · rintro _ ⟨⟩
      exact hbelow (by omega)
  | require | restrict =>
    refine hJ.mono (show 1 ≤ 3 by decide)
      (hJ.node ⟨rfl, rfl, nofun, rfl, rfl, rfl, nofun, nofun, nofun⟩ ⟨nofun, nofun, ?_⟩)
    rintro _ ⟨⟩ lower -
    exact hJ.typeShorthand nofun (by omega) (by decide)

/-- The grammar, if the arguments of keywords are dealt with further down. -/
theorem grammar_of_arguments (hJ : Passable J)
    (harguments : ∀ lower < height, ∀ depth, 3 * lower + 3 ≤ depth →
      ∀ keyword, J depth lower 3 (Grammar.argument keyword))
    (hdepth : 3 * height + 2 ≤ depth) : J depth height 2 grammar := by
  obtain ⟨depth, rfl⟩ := Nat.exists_eq_add_of_le' (Nat.le_trans (Nat.le_add_left 2 _) hdepth)
  refine hJ.node ⟨rfl, rfl, nofun, rfl, rfl, rfl, nofun, nofun, nofun⟩ ⟨?_, nofun, nofun⟩
  rintro _ ⟨⟩ d hd
  simp only [List.mem_cons, List.not_mem_nil, or_false] at hd
  rcases hd with rfl | rfl | rfl
  · exact hJ.typeShorthand nofun (by omega) (by decide)
  · exact hJ.typeName (by omega) (by decide)
  · refine hJ.node ⟨rfl, rfl, nofun, rfl, rfl, rfl, nofun, ?_, nofun⟩ ⟨nofun, ?_, nofun⟩
    · rintro _ ⟨⟩
      exact ⟨_, rfl, rfl, rfl⟩
    · rintro _ ⟨⟩ field hfield lower hlower
      obtain ⟨keyword, -, rfl⟩ := List.mem_map.1 hfield
      exact hJ.mono (by decide) (harguments lower hlower _ (by omega) keyword)

/-- **A statement that passes from parts to the whole holds of the grammar**, if there is room
for two definitions and the depth exceeds three times the height. -/
theorem grammar (hJ : Passable J) (height : Nat) (hdepth : 3 * height + 2 ≤ depth) :
    J depth height 2 Definition.grammar := by
  -- An argument may be a definition at the same place, and holds definitions further down.
  induction height using Nat.strongRecOn generalizing depth with
  | _ height ih =>
    refine hJ.grammar_of_arguments (fun lower hlower depth hdepth keyword => ?_) hdepth
    refine hJ.argument (fun other hother depth hdepth => ?_) keyword hdepth
    obtain ⟨depth, rfl⟩ := Nat.exists_eq_add_of_le' (Nat.le_trans (Nat.le_add_left 2 _) hdepth)
    exact hJ.thunk (ih other (by omega) hdepth)

end Passable

end Definition

end Conform
