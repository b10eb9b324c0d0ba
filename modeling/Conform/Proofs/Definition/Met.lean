import Conform.Definition.OfJson
import Conform.Definition.Resolve

/-!
# The definitions that a check may meet

A check of a value against a definition goes on to its fields, items and alternatives,
and to whatever thunks and deferred fields yield.  What is asked of a definition and
everything in it is asked of all definitions that it may meet, whatever the state of the
host when they are produced.

A definition that is read from a document is written out: it has no deferred parts, and
so it meets its own parts alone.

## Main definitions

* `Definition.Met`, `Definition.Throughout`: the definitions met, and a property of all.
* `Definition.Repeatable`: definitions that do the same each time.
* `Definition.Written`: definitions without deferred parts.
* `Forcing.Steady`: what is produced does not depend on the state of the host.

## Main results

* `Definition.Throughout.resolve`: resolving leads to definitions met.
* `Definition.written_ofJson`: definitions read from documents are written out.
* `Definition.steady_resolve`: steady thunks are resolved steadily.
-/

namespace Conform

variable {σ α β : Type}

/-- A host that yields nothing but the empty definition and null. -/
instance : Inhabited (Host σ) where
  default :=
    { force := fun _ => pure default
      fields := fun _ => pure []
      produce := fun _ => pure .null
      transform := fun _ value => pure (.ok value)
      call := fun _ _ => pure .null }

/-! ## Producing definitions -/

namespace Forcing

/-- What is produced, or why nothing is. -/
def outcome (m : Forcing σ α) (env : σ) : Except DefinitionError α :=
  match m env with
  | .ok a _ => .ok a
  | .error fault _ => .error fault

/-- The same is produced each time. -/
def Steady (m : Forcing σ α) : Prop := ∀ env env', m.outcome env = m.outcome env'

theorem outcome_eq_ok {m : Forcing σ α} {env : σ} {a : α} :
    m.outcome env = .ok a ↔ ∃ env', m env = .ok a env' := by
  unfold outcome
  cases m env <;> simp

theorem steady_pure (a : α) : Steady (pure a : Forcing σ α) := fun _ _ => rfl

theorem steady_throw (fault : DefinitionError) : Steady (throw fault : Forcing σ α) :=
  fun _ _ => rfl

/-- What is produced from what was produced steadily. -/
theorem Steady.bind {m : Forcing σ α} {f : α → Forcing σ β} (hm : m.Steady)
    (hf : ∀ env a env', m env = .ok a env' → (f a).Steady) : (m >>= f).Steady := by
  intro env env'
  have hm := hm env env'
  unfold outcome at hm ⊢
  simp only [Bind.bind, EStateM.bind]
  -- Both yield the same or fail alike, and then the rest is for the same thing.
  cases h : m env with
  | ok a env₁ =>
    rw [h] at hm
    cases h' : m env' with
    | ok a' env₁' =>
      rw [h'] at hm
      obtain rfl := Except.ok.inj hm
      exact hf env a env₁ h env₁ env₁'
    | error fault env₁' => rw [h'] at hm; cases hm
  | error fault env₁ =>
    rw [h] at hm
    cases h' : m env' with
    | ok a' env₁' => rw [h'] at hm; cases hm
    | error fault' env₁' =>
      rw [h'] at hm
      obtain rfl := Except.error.inj hm
      rfl

end Forcing

namespace Run

/-- Producing definitions leaves the heap as it is. -/
theorem heap_ofForcing (m : Forcing σ α) (world : World σ) :
    (ofForcing m world).2.heap = world.heap := by
  unfold ofForcing
  cases m world.env <;> rfl

theorem fst_ofForcing (m : Forcing σ α) (world : World σ) :
    (ofForcing m world).1 = m.outcome world.env := by
  unfold ofForcing Forcing.outcome
  cases m world.env <;> rfl

end Run

namespace Definition

/-! ## Definitions met -/

/-- The definitions that a check against a definition may come to. -/
inductive Met (host : Host σ) (definition : Definition) : Definition → Prop where
  | refl : Met host definition definition
  | shorthand {type : TypeName} : Met host definition (.shorthand type) →
      Met host definition (.node (.ofType type))
  | forced {thunk : Thunk} {env env' : σ} {forced : Definition} :
      Met host definition (.deferred thunk) → thunk.force host env = .ok forced env' →
      Met host definition forced
  | field {node : Node Definition} {fields : Fields Definition} {env env' : σ}
      {declared : List (String × Definition)} {field : String × Definition} :
      Met host definition (.node node) → node.schema = some fields →
      fields.resolve host env = .ok declared env' → field ∈ declared →
      Met host definition field.2
  | item {node : Node Definition} {item : Definition} : Met host definition (.node node) →
      node.items = some item → Met host definition item
  | alternative {node : Node Definition} {alternatives : List Definition}
      {alternative : Definition} : Met host definition (.node node) →
      node.either = some alternatives → alternative ∈ alternatives →
      Met host definition alternative

/-- What all definitions have that a check may come to. -/
def Throughout (host : Host σ) (good : Definition → Prop) (definition : Definition) : Prop :=
  ∀ met, Met host definition met → good met

variable {host : Host σ} {definition met : Definition} {good : Definition → Prop}

theorem Met.trans {other : Definition} (h : Met host definition met) (h' : Met host met other) :
    Met host definition other := by
  induction h' with
  | refl => exact h
  | shorthand _ ih => exact .shorthand ih
  | forced _ hforce ih => exact .forced ih hforce
  | field _ hschema hresolve hfield ih => exact .field ih hschema hresolve hfield
  | item _ hitems ih => exact .item ih hitems
  | alternative _ heither hmem ih => exact .alternative ih heither hmem

theorem Throughout.self (h : Throughout host good definition) : good definition := h _ .refl

theorem Throughout.imp {good' : Definition → Prop} (h : Throughout host good definition)
    (himp : ∀ met, good met → good' met) : Throughout host good' definition :=
  fun met hmet => himp met (h met hmet)

theorem Throughout.of_met (h : Throughout host good definition)
    (hmet : Met host definition met) : Throughout host good met :=
  fun other hother => h other (hmet.trans hother)

/-- Forcing thunks leads to a node that is met. -/
theorem met_unfold {more : Nat} {node : Node Definition} {env env' : σ}
    (h : definition.unfold host more env = .ok node env') : Met host definition (.node node) := by
  induction more generalizing definition env with
  | zero =>
    cases definition with
    | shorthand type => cases h; exact .shorthand .refl
    | deferred thunk => cases h
    | node keywords => cases h; exact .refl
  | succ more ih =>
    cases definition with
    | shorthand type => cases h; exact .shorthand .refl
    | node keywords => cases h; exact .refl
    | deferred thunk =>
      simp only [unfold, Bind.bind, EStateM.bind] at h
      cases hforce : thunk.force host env with
      | ok forced env₁ =>
        rw [hforce] at h
        exact (Met.forced .refl hforce).trans (ih h)
      | error fault env₁ => rw [hforce] at h; cases h

/-- What is resolved is the node that thunks are forced down to. -/
theorem unfold_of_resolve {policy : Policy} {resolved : Resolved} {env env' : σ}
    (h : Conform.resolve host policy definition env = .ok resolved env') :
    ∃ node, definition.unfold host maxThunkChain env = .ok node env' ∧
      resolved = policy.complete node := by
  simp only [Conform.resolve, Bind.bind, EStateM.bind] at h
  cases hunfold : definition.unfold host maxThunkChain env with
  | ok node env₁ =>
    rw [hunfold] at h
    cases h
    exact ⟨node, rfl, rfl⟩
  | error fault env₁ => rw [hunfold] at h; cases h

/-- What is resolved comes from a node that is met. -/
theorem met_resolve {policy : Policy} {resolved : Resolved} {env env' : σ}
    (h : Conform.resolve host policy definition env = .ok resolved env') :
    Met host definition (.node resolved.node) ∧ resolved = policy.complete resolved.node := by
  obtain ⟨node, hunfold, rfl⟩ := unfold_of_resolve h
  exact ⟨met_unfold hunfold, rfl⟩

/-! ## Steady definitions -/

/-- The definition or the fields that a definition defers are the same each time they
are produced. -/
def Steady (host : Host σ) : Definition → Prop
  | .shorthand _ => True
  | .deferred thunk => (thunk.force host).Steady
  | .node keywords => ∀ fields, keywords.schema = some fields → (fields.resolve host).Steady

theorem steady_unfold (h : Throughout host (Steady host) definition) (more : Nat) :
    (definition.unfold host more).Steady := by
  induction more generalizing definition with
  | zero =>
    cases definition with
    | shorthand type => exact Forcing.steady_pure _
    | deferred thunk => exact Forcing.steady_throw _
    | node keywords => exact Forcing.steady_pure _
  | succ more ih =>
    cases definition with
    | shorthand type => exact Forcing.steady_pure _
    | node keywords => exact Forcing.steady_pure _
    | deferred thunk =>
      have hforce : (thunk.force host).Steady := h.self
      exact hforce.bind fun env forced env' hforced => ih (h.of_met (.forced .refl hforced))

/-- **Steady thunks are resolved steadily.** -/
theorem steady_resolve (h : Throughout host (Steady host) definition) (policy : Policy) :
    (Conform.resolve host policy definition).Steady :=
  (steady_unfold h _).bind fun _ _ _ _ => Forcing.steady_pure _

/-- A definition without default thunks and transforms that yields the same each time. -/
structure Repeatable (host : Host σ) (definition : Definition) : Prop where
  steady : definition.Steady host
  custom : ∀ keywords, definition = .node keywords → keywords.custom = none
  fallback : ∀ keywords code, definition = .node keywords →
    keywords.fallback ≠ some (.produced code)

/-! ## Definitions that are written out -/

/-- A definition without deferred parts. -/
inductive Written : Definition → Prop where
  | shorthand (type : TypeName) : Written (.shorthand type)
  | node {keywords : Node Definition} : keywords.custom = none →
      (∀ code, keywords.fallback ≠ some (.produced code)) →
      (∀ code, keywords.schema ≠ some (.deferred code)) →
      (∀ fields, keywords.schema = some (.declared fields) → ∀ field ∈ fields, Written field.2) →
      (∀ item, keywords.items = some item → Written item) →
      (∀ alternatives, keywords.either = some alternatives →
        ∀ alternative ∈ alternatives, Written alternative) → Written (.node keywords)

end Definition

/-- A node without deferred parts. -/
structure Node.Written (node : Node Definition) : Prop where
  custom : node.custom = none
  fallback : ∀ code, node.fallback ≠ some (.produced code)
  deferred : ∀ code, node.schema ≠ some (.deferred code)
  fields : ∀ fields, node.schema = some (.declared fields) →
    ∀ field ∈ fields, field.2.Written
  items : ∀ item, node.items = some item → item.Written
  either : ∀ alternatives, node.either = some alternatives →
    ∀ alternative ∈ alternatives, alternative.Written

/-- Only some of the keywords can hold deferred parts. -/
theorem Node.Written.of_eq {node next : Node Definition} (h : node.Written)
    (hcustom : next.custom = node.custom) (hfallback : next.fallback = node.fallback)
    (hschema : next.schema = node.schema) (hitems : next.items = node.items)
    (heither : next.either = node.either) : next.Written where
  custom := hcustom ▸ h.custom
  fallback := hfallback ▸ h.fallback
  deferred := hschema ▸ h.deferred
  fields := hschema ▸ h.fields
  items := hitems ▸ h.items
  either := heither ▸ h.either

namespace Definition

theorem written_node_iff {keywords : Node Definition} :
    Written (.node keywords) ↔ keywords.Written := by
  constructor
  · rintro (_ | ⟨custom, fallback, deferred, fields, items, either⟩)
    exact ⟨custom, fallback, deferred, fields, items, either⟩
  · rintro ⟨custom, fallback, deferred, fields, items, either⟩
    exact .node custom fallback deferred fields items either

/-- A written definition meets its own parts alone. -/
theorem Written.of_met {host : Host σ} {definition met : Definition} (h : Written definition)
    (hmet : Met host definition met) : Written met := by
  induction hmet with
  | refl => exact h
  | shorthand _ _ =>
    exact written_node_iff.2 ⟨rfl, nofun, nofun, nofun, nofun, nofun⟩
  | forced _ _ ih => cases ih
  | @field keywords fields env env' declared field _ hschema hresolve hfield ih =>
    have hwritten := written_node_iff.1 ih
    cases fields with
    | declared fields =>
      cases hresolve
      exact hwritten.fields _ hschema _ hfield
    | deferred code => exact absurd hschema (hwritten.deferred code)
  | item _ hitems ih => exact (written_node_iff.1 ih).items _ hitems
  | alternative _ heither hmem ih => exact (written_node_iff.1 ih).either _ heither _ hmem

/-- A written definition is the same each time it is produced. -/
theorem Written.steady (host : Host σ) {definition : Definition} (h : Written definition) :
    Steady host definition := by
  cases definition with
  | shorthand type => trivial
  | deferred thunk => cases h
  | node keywords =>
    intro fields hschema
    cases fields with
    | declared fields => exact Forcing.steady_pure _
    | deferred code => exact absurd hschema ((written_node_iff.1 h).deferred code)

/-- **Written definitions are repeatable.** -/
theorem Written.repeatable (host : Host σ) {definition : Definition} (h : Written definition) :
    Repeatable host definition where
  steady := h.steady host
  custom := by
    rintro keywords rfl
    exact (written_node_iff.1 h).custom
  fallback := by
    rintro keywords code rfl
    exact (written_node_iff.1 h).fallback code

theorem Written.throughout (host : Host σ) {definition : Definition} (h : Written definition) :
    Throughout host (Repeatable host) definition :=
  fun _ hmet => (h.of_met hmet).repeatable host

/-! ## Documents -/

theorem bind_eq_ok {ε : Type} {x : Except ε α} {f : α → Except ε β} {b : β}
    (h : x >>= f = .ok b) : ∃ a, x = .ok a ∧ f a = .ok b := by
  cases x with
  | error fault => cases h
  | ok a => exact ⟨a, rfl, h⟩

theorem written_empty : ({} : Node Definition).Written :=
  ⟨rfl, nofun, nofun, nofun, nofun, nofun⟩

mutual

/-- **Definitions read from documents are written out.** -/
theorem written_ofJson (json : Json) {definition : Definition}
    (h : ofJson json = .ok definition) : Written definition := by
  cases json with
  | string name =>
    rw [ofJson] at h
    obtain ⟨type, -, htype⟩ := bind_eq_ok h
    cases htype
    exact .shorthand type
  | object members =>
    rw [ofJson] at h
    obtain ⟨keywords, hkeywords, hnode⟩ := bind_eq_ok h
    cases hnode
    exact written_node_iff.2 (written_nodeOfMembers members written_empty hkeywords)
  | _ => simp [ofJson] at h

theorem written_nodeOfMembers (members : List (String × Json)) {keywords result : Node Definition}
    (hkeywords : keywords.Written) (h : nodeOfMembers keywords members = .ok result) :
    result.Written := by
  cases members with
  | nil => rw [nodeOfMembers] at h; cases h; exact hkeywords
  | cons member rest =>
    obtain ⟨name, argument⟩ := member
    rw [nodeOfMembers] at h
    have hnext : ∀ {next : Node Definition}, next.Written →
        nodeOfMembers next rest = .ok result → result.Written :=
      fun hnext hrest => written_nodeOfMembers rest hnext hrest
    have hfields : ∀ {fields : List (String × Definition)},
        fieldsOfJson name argument = .ok fields → ∀ field ∈ fields, field.2.Written := by
      intro fields hfields
      cases argument with
      | object members => exact written_fieldsOfMembers members hfields
      | _ => simp [fieldsOfJson] at hfields
    cases hkeyword : Keyword.ofText? name with
    | none => rw [hkeyword] at h; cases h
    | some keyword =>
      rw [hkeyword] at h
      -- Most keywords take no definitions; for the others the argument is read apart.
      cases keyword with
      | optional | required | strict | type | bounds | require | restrict =>
        obtain ⟨_, -, h⟩ := bind_eq_ok h
        refine hnext ?_ h
        exact hkeywords.of_eq rfl rfl rfl rfl rfl
      | default =>
        refine hnext ?_ h
        exact { hkeywords with fallback := nofun }
      | schema | properties =>
        simp only at h
        split at h
        · cases h
        · obtain ⟨fields, hargument, h⟩ := bind_eq_ok h
          refine hnext ?_ h
          refine { hkeywords with deferred := nofun, fields := ?_ }
          rintro _ hsome
          cases hsome
          exact hfields hargument
      | items =>
        obtain ⟨item, hitem, h⟩ := bind_eq_ok h
        refine hnext ?_ h
        refine { hkeywords with items := ?_ }
        rintro _ hsome
        cases hsome
        exact written_ofJson argument hitem
      | oneOf | enumeration =>
        simp only at h
        split at h
        · cases h
        · obtain ⟨_, -, h⟩ := bind_eq_ok h
          refine hnext ?_ h
          exact hkeywords.of_eq rfl rfl rfl rfl rfl
      | either =>
        obtain ⟨alternatives, halternatives, h⟩ := bind_eq_ok h
        refine hnext ?_ h
        refine { hkeywords with either := ?_ }
        rintro _ hsome
        cases hsome
        cases argument with
        | array items =>
          cases items with
          | nil => simp [alternativesOfJson] at halternatives
          | cons item items =>
            rw [alternativesOfJson] at halternatives
            · exact written_alternativesOfItems 0 (item :: items) halternatives
            · nofun
        | _ => simp [alternativesOfJson] at halternatives
      | custom => cases h

theorem written_fieldsOfMembers (members : List (String × Json))
    {fields : List (String × Definition)} (h : fieldsOfMembers members = .ok fields) :
    ∀ field ∈ fields, field.2.Written := by
  cases members with
  | nil => rw [fieldsOfMembers] at h; cases h; nofun
  | cons member rest =>
    obtain ⟨name, json⟩ := member
    rw [fieldsOfMembers] at h
    obtain ⟨definition, hdefinition, h⟩ := bind_eq_ok h
    obtain ⟨others, hothers, h⟩ := bind_eq_ok h
    cases h
    intro field hfield
    rcases List.mem_cons.1 hfield with rfl | hfield
    · exact written_ofJson json hdefinition
    · exact written_fieldsOfMembers rest hothers field hfield

theorem written_alternativesOfItems (index : Nat) (items : List Json)
    {alternatives : List Definition} (h : alternativesOfItems index items = .ok alternatives) :
    ∀ alternative ∈ alternatives, alternative.Written := by
  cases items with
  | nil => rw [alternativesOfItems] at h; cases h; nofun
  | cons json rest =>
    rw [alternativesOfItems] at h
    cases hjson : ofJson json with
    | error fault => rw [hjson] at h; cases h
    | ok definition =>
      rw [hjson] at h
      obtain ⟨others, hothers, h⟩ := bind_eq_ok h
      cases h
      intro alternative halternative
      rcases List.mem_cons.1 halternative with rfl | halternative
      · exact written_ofJson json hjson
      · exact written_alternativesOfItems _ rest hothers alternative halternative

end

end Definition

end Conform
