import Conform.Proofs.Definition.Recast

/-!
# Strictness written out

A node says whether its objects are strict, or leaves that to the policy.  A definition is
written out for a policy when every node in it that leaves this open is made to say what the
policy would have said.  That goes through everything a check may come to: the parts of nodes,
the names of types, which then have to be nodes, and whatever thunks and deferred fields yield.

What a thunk yields is not in the definition but in the host, so the host is written out with
it.  The grammar is no thunk of the host; written out it has to be one, and it becomes the
first, with the others moved up by one.

## Main definitions

* `Definition.declaring`, `Host.declaring`: a definition and a host written out.
* `Definition.Declares`: definitions that leave nothing to the policy.

## Main results

* `Definition.throughout_declaring`: written out, nothing that is met leaves strictness open.
* `Definition.resolve_declaring`: it resolves as the definition does under the policy.
-/

namespace Conform

variable {σ : Type} {host : Host σ} {strict : Bool}

/-- The same thunk among those of a host that has the grammar as its first. -/
def Thunk.shifted : Thunk → Thunk
  | .grammar => .host 0
  | .host code => .host (code + 1)

/-- The node with its strictness declared, which is as given if the node does not say. -/
def Node.declaring {δ : Type} (strict : Bool) (node : Node δ) : Node δ :=
  { node with strict := some (node.strict.getD strict) }

/-- The definition with its strictness declared on every node. -/
def Definition.declaring (strict : Bool) : Definition → Definition :=
  fold (fun type => .node ((Node.ofType type).declaring strict))
    (fun thunk => .deferred thunk.shifted) fun node => .node (node.declaring strict)

/-- The fields with strictness declared in their definitions. -/
def Fields.declaring (strict : Bool) (fields : List (String × Definition)) :
    List (String × Definition) :=
  fields.map fun field => (field.1, field.2.declaring strict)

/-- The host that yields the grammar and the definitions of another with their strictness
declared. -/
def Host.declaring (strict : Bool) (host : Host σ) : Host σ :=
  { host with
    force := fun
      | 0 => pure (Definition.grammar.declaring strict)
      | code + 1 => Definition.declaring strict <$> host.force code
    fields := fun code => Fields.declaring strict <$> host.fields code }

/-- Whether a definition says for itself if objects are strict. -/
def Definition.Declares : Definition → Prop
  | .shorthand _ => False
  | .deferred _ => True
  | .node keywords => keywords.strict.isSome

namespace Definition

@[simp] theorem declaring_shorthand (type : TypeName) :
    (shorthand type).declaring strict = .node ((Node.ofType type).declaring strict) := rfl

@[simp] theorem declaring_deferred (thunk : Thunk) :
    (deferred thunk).declaring strict = .deferred thunk.shifted := rfl

@[simp] theorem declaring_node (keywords : Node Definition) :
    (node keywords).declaring strict =
      .node ((keywords.map (Definition.declaring strict)).declaring strict) :=
  fold_node ..

theorem declares_declaring (definition : Definition) :
    (definition.declaring strict).Declares := by
  cases definition with
  | shorthand type => exact rfl
  | deferred thunk => trivial
  | node keywords =>
    rw [declaring_node]
    exact rfl

/-- Declaring strictness makes no definition deeper. -/
theorem depth_declaring (definition : Definition) :
    (definition.declaring strict).depth = definition.depth := by
  induction definition with
  | shorthand type => rfl
  | deferred thunk => rfl
  | node keywords ih =>
    have hparts : ((keywords.map (Definition.declaring strict)).declaring strict).parts =
        keywords.parts.map (Definition.declaring strict) := Node.parts_map _ keywords
    rw [declaring_node, depth_node, depth_node, hparts, List.map_map]
    exact congrArg (List.foldl max 0 · + 1) (List.map_congr_left ih)

end Definition

/-! ## What the host yields -/

theorem Thunk.force_shifted (thunk : Thunk) :
    thunk.shifted.force (host.declaring strict) =
      Definition.declaring strict <$> thunk.force host := by
  cases thunk with
  | grammar => exact (map_pure _ _).symm
  | host code => rfl

theorem Fields.resolve_declaring (fields : Fields Definition) :
    (fields.map (Definition.declaring strict)).resolve (host.declaring strict) =
      Fields.declaring strict <$> fields.resolve host := by
  cases fields with
  | declared fields => exact (map_pure _ _).symm
  | deferred code => rfl

theorem Fallback.produce_declaring (fallback : Fallback) :
    fallback.produce (host.declaring strict) = fallback.produce host := by
  cases fallback <;> rfl

theorem Transform.apply_declaring (transform : Transform) (value : Value) :
    transform.apply (host.declaring strict) value = transform.apply host value := by
  cases transform <;> rfl

namespace Forcing

/-- What comes out of a computation that is mapped has come out of the computation. -/
theorem exists_of_map {α β : Type} {f : α → β} {m : Forcing σ α} {env env' : σ} {b : β}
    (h : (f <$> m) env = .ok b env') : ∃ a, m env = .ok a env' ∧ b = f a := by
  change EStateM.map f m env = .ok b env' at h
  rw [EStateM.map] at h
  cases hm : m env with
  | ok a env₁ =>
    rw [hm] at h
    cases h
    exact ⟨a, rfl, rfl⟩
  | error fault env₁ => rw [hm] at h; cases h

end Forcing

namespace Definition

/-! ## Definitions met -/

/-- What is met in a definition written out has been written out itself. -/
theorem exists_of_met_declaring {definition met : Definition}
    (h : Met (host.declaring strict) (definition.declaring strict) met) :
    ∃ original : Definition, met = original.declaring strict := by
  -- A part of a node written out is a part of the node, written out.
  have hnode : ∀ {keywords : Node Definition} {original : Definition},
      node keywords = original.declaring strict →
        ∃ before : Node Definition,
          keywords = (before.map (declaring strict)).declaring strict := by
    intro keywords original heq
    cases original with
    | shorthand type => exact ⟨.ofType type, node.inj heq⟩
    | deferred thunk => cases heq
    | node before => exact ⟨before, node.inj (heq.trans (declaring_node before))⟩
  induction h with
  | refl => exact ⟨definition, rfl⟩
  | shorthand _ ih =>
    obtain ⟨original, heq⟩ := ih
    cases original with
    | shorthand type => cases heq
    | deferred thunk => cases heq
    | node before => rw [declaring_node] at heq; cases heq
  | forced _ hforce ih =>
    obtain ⟨original, heq⟩ := ih
    cases original with
    | shorthand type => cases heq
    | node before => rw [declaring_node] at heq; cases heq
    | deferred thunk =>
      obtain rfl := deferred.inj heq
      rw [Thunk.force_shifted] at hforce
      obtain ⟨forced, -, rfl⟩ := Forcing.exists_of_map hforce
      exact ⟨forced, rfl⟩
  | field _ hschema hresolve hfield ih =>
    obtain ⟨_, heq⟩ := ih
    obtain ⟨before, rfl⟩ := hnode heq
    obtain ⟨fields, -, rfl⟩ := Option.map_eq_some_iff.1 hschema
    rw [Fields.resolve_declaring] at hresolve
    obtain ⟨declared, -, rfl⟩ := Forcing.exists_of_map hresolve
    obtain ⟨field, -, rfl⟩ := List.mem_map.1 hfield
    exact ⟨field.2, rfl⟩
  | item _ hitems ih =>
    obtain ⟨_, heq⟩ := ih
    obtain ⟨before, rfl⟩ := hnode heq
    obtain ⟨item, -, rfl⟩ := Option.map_eq_some_iff.1 hitems
    exact ⟨item, rfl⟩
  | alternative _ heither hmem ih =>
    obtain ⟨_, heq⟩ := ih
    obtain ⟨before, rfl⟩ := hnode heq
    obtain ⟨alternatives, -, rfl⟩ := Option.map_eq_some_iff.1 heither
    obtain ⟨alternative, -, rfl⟩ := List.mem_map.1 hmem
    exact ⟨alternative, rfl⟩

/-- **Written out, nothing that is met leaves strictness open.** -/
theorem throughout_declaring (definition : Definition) :
    (definition.declaring strict).Throughout (host.declaring strict) Declares := by
  intro met hmet
  obtain ⟨original, rfl⟩ := exists_of_met_declaring hmet
  exact declares_declaring original

/-! ## Resolving -/

/-- A definition written out unfolds to the node written out. -/
theorem unfold_declaring (more : Nat) (definition : Definition) :
    (definition.declaring strict).unfold (host.declaring strict) more =
      (fun keywords => (keywords.map (declaring strict)).declaring strict) <$>
        definition.unfold host more := by
  induction more generalizing definition with
  | zero =>
    cases definition with
    | shorthand type => exact (map_pure _ _).symm
    | deferred thunk => rfl
    | node keywords =>
      rw [declaring_node, unfold_node, unfold_node, map_pure]
  | succ more ih =>
    cases definition with
    | shorthand type => exact (map_pure _ _).symm
    | node keywords =>
      rw [declaring_node, unfold_node, unfold_node, map_pure]
    | deferred thunk =>
      rw [declaring_deferred, unfold, unfold, Thunk.force_shifted, bind_map_left, map_bind]
      exact bind_congr ih

end Definition

/-- What is resolved, with its strictness declared. -/
def Resolved.declaring (strict : Bool) (resolved : Resolved) : Resolved :=
  { resolved with
    node := (resolved.node.map (Definition.declaring strict)).declaring strict }

/-- **Written out, a definition resolves as it does under the policy**, and no policy has
anything left to say. -/
theorem Definition.resolve_declaring {policy policy' : Policy}
    (hstrict : policy.defaultStrict = strict) (definition : Definition) :
    resolve (host.declaring strict) policy' (definition.declaring strict) =
      Resolved.declaring strict <$> resolve host policy definition := by
  subst hstrict
  simp only [resolve, unfold_declaring, bind_map_left, map_bind, map_pure]
  rfl

end Conform
