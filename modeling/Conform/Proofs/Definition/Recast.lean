import Mathlib.Data.List.Forall2
import Conform.Definition.Resolve
import Conform.Proofs.Definition.Parts

/-!
# Definitions recast

The three forms of a definition say the same in different ways.  A definition is recast when
any of the definitions in it come out of thunks, not too many in a row; when the name of a
type is spelled out as a node, or the other way; and when declared fields are produced
instead.  What a thunk yields may be another recast definition each time.

Forcing a thunk may change the state of the host.  So a relation between states says which
differences the host overlooks when it produces defaults and transforms values.

## Main definitions

* `Host.Overlooks`: differences between states that no default and no transform shows.
* `Definition.Recast`: definitions that say the same in different forms.
* `Definition.Chained`: definitions with so many thunks in a row.

## Main results

* `Definition.Recast.unfold`: definitions recast unfold to nodes that say the same.
* `Definition.Chained.unfold`: where there is one thunk too many, unfolding ends in a fault.
-/

namespace Conform

variable {σ : Type}

/-! ## What a host overlooks -/

/-- In states that are related, the step comes to the same result and to the same heap, and the
states are related again. -/
def Run.Overlooks {α : Type} (R : σ → σ → Prop) (m : Run σ α) : Prop :=
  ∀ heap env env', R env env' → (m ⟨heap, env⟩).1 = (m ⟨heap, env'⟩).1 ∧
    (m ⟨heap, env⟩).2.heap = (m ⟨heap, env'⟩).2.heap ∧
    R (m ⟨heap, env⟩).2.env (m ⟨heap, env'⟩).2.env

/-- The host produces the same defaults and transforms values in the same way in states that
are related. -/
structure Host.Overlooks (host : Host σ) (R : σ → σ → Prop) : Prop where
  refl : ∀ env, R env env
  trans : ∀ {env env' env'' : σ}, R env env' → R env' env'' → R env env''
  produce : ∀ code, (host.produce code).Overlooks R
  transform : ∀ code value, (host.transform code value).Overlooks R

namespace Host.Overlooks

variable {host : Host σ} {R : σ → σ → Prop} (h : host.Overlooks R)
include h

theorem fallback (fallback : Fallback) : (fallback.produce host).Overlooks R := by
  cases fallback with
  | literal json => exact fun _ _ _ henv => ⟨rfl, rfl, henv⟩
  | produced code => exact h.produce code

theorem apply (transform : Transform) (value : Value) :
    (transform.apply host value).Overlooks R := by
  cases transform with
  | nonEmpty =>
    intro heap env env' henv
    simp only [Transform.apply]
    cases value with
    | array ref => by_cases hempty : (heap.items ref).isEmpty <;> simp [hempty, henv]
    | _ => exact ⟨rfl, rfl, henv⟩
  | host code => exact h.transform code value

end Host.Overlooks

/-! ## Recast definitions -/

/-- The node without the definitions in it. -/
def Node.bare (node : Node Definition) : Node Definition :=
  { node with schema := none, items := none, either := none }

/-- The same fields in the same order, with related definitions; in place of declared fields
there may be fields that the host produces, in every state. -/
inductive Fields.Recast (host : Host σ) (R : σ → σ → Prop) (D : Definition → Definition → Prop) :
    Fields Definition → Fields Definition → Prop where
  | declared {fields others : List (String × Definition)} :
      Entries.keys fields = Entries.keys others →
      List.Forall₂ D (fields.map Prod.snd) (others.map Prod.snd) →
      Recast host R D (.declared fields) (.declared others)
  | deferred {fields : List (String × Definition)} {code : Code}
      (produced : σ → List (String × Definition)) (after : σ → σ) :
      (∀ env, host.fields code env = .ok (produced env) (after env)) →
      (∀ env, R env (after env)) →
      (∀ env, Entries.keys fields = Entries.keys (produced env)) →
      (∀ env, List.Forall₂ D (fields.map Prod.snd) ((produced env).map Prod.snd)) →
      Recast host R D (.declared fields) (.deferred code)

/-- The second definition is the first recast, with at most so many thunks in a row at the
front of it and no more than there may be at the front of any definition in it. -/
inductive Definition.Recast (host : Host σ) (R : σ → σ → Prop) :
    Nat → Definition → Definition → Prop where
  | same {most : Nat} (type : TypeName) : Recast host R most (.shorthand type) (.shorthand type)
  | spelled {most : Nat} (type : TypeName) :
      Recast host R most (.shorthand type) (.node (.ofType type))
  | named {most : Nat} (type : TypeName) :
      Recast host R most (.node (.ofType type)) (.shorthand type)
  | node {most : Nat} {first second : Node Definition} : first.bare = second.bare →
      Option.Rel (Fields.Recast host R (Recast host R maxThunkChain)) first.schema second.schema →
      Option.Rel (Recast host R maxThunkChain) first.items second.items →
      Option.Rel (List.Forall₂ (Recast host R maxThunkChain)) first.either second.either →
      Recast host R most (.node first) (.node second)
  | forced {most : Nat} {definition : Definition} {thunk : Thunk} (yielded : σ → Definition)
      (after : σ → σ) :
      (∀ env, thunk.force host env = .ok (yielded env) (after env)) →
      (∀ env, R env (after env)) →
      (∀ env, Recast host R most definition (yielded env)) →
      Recast host R (most + 1) definition (.deferred thunk)

/-- Nodes that say the same, with related definitions in them. -/
structure Node.Recast (host : Host σ) (R : σ → σ → Prop) (D : Definition → Definition → Prop)
    (first second : Node Definition) : Prop where
  bare : first.bare = second.bare
  schema : Option.Rel (Fields.Recast host R D) first.schema second.schema
  items : Option.Rel D first.items second.items
  either : Option.Rel (List.Forall₂ D) first.either second.either

theorem Node.recast_ofType (host : Host σ) (R : σ → σ → Prop) (D : Definition → Definition → Prop)
    (type : TypeName) : Node.Recast host R D (.ofType type) (.ofType type) :=
  ⟨rfl, .none, .none, .none⟩

theorem option_rel_imp_of_eq {α β : Type} {R S : α → β → Prop} {x : Option α} {y : Option β}
    (h : Option.Rel R x y) (himp : ∀ a b, x = some a → R a b → S a b) : Option.Rel S x y := by
  cases h with
  | none => exact .none
  | some hab => exact .some (himp _ _ rfl hab)

/-- What holds of the definitions in the first node may be added to the relation. -/
theorem Node.Recast.and {host : Host σ} {R : σ → σ → Prop} {D : Definition → Definition → Prop}
    {P : Definition → Prop} {first second : Node Definition}
    (h : Node.Recast host R D first second) (hparts : ∀ part ∈ first.parts, P part) :
    Node.Recast host R (fun d e => P d ∧ D d e) first second := by
  have hfields : ∀ {fields : List (String × Definition)}, first.schema = some (.declared fields) →
      ∀ part ∈ fields.map Prod.snd, P part := by
    intro fields hsome part hpart
    obtain ⟨field, hfield, rfl⟩ := List.mem_map.1 hpart
    exact hparts _ (mem_parts_of_field hsome hfield)
  refine ⟨h.bare, ?_, ?_, ?_⟩
  · refine option_rel_imp_of_eq h.schema fun fields others hsome hrecast => ?_
    cases hrecast with
    | declared hkeys hvalues =>
      exact .declared hkeys ((List.forall₂_and_left _ _).2 ⟨hfields hsome, hvalues⟩)
    | deferred produced after hproduced hafter hkeys hvalues =>
      exact .deferred produced after hproduced hafter hkeys fun env =>
        (List.forall₂_and_left _ _).2 ⟨hfields hsome, hvalues env⟩
  · exact option_rel_imp_of_eq h.items fun item other hsome hrecast =>
      ⟨hparts item (mem_parts_of_item hsome), hrecast⟩
  · exact option_rel_imp_of_eq h.either fun definitions others hsome hrecast =>
      (List.forall₂_and_left _ _).2
        ⟨fun d hd => hparts d (mem_parts_of_alternative hsome hd), hrecast⟩

namespace Definition

variable {host : Host σ} {R : σ → σ → Prop}

theorem unfold_shorthand (most : Nat) (type : TypeName) :
    (shorthand type).unfold host most = pure (.ofType type) := by
  cases most <;> rfl

theorem unfold_node (most : Nat) (keywords : Node Definition) :
    (node keywords).unfold host most = pure keywords := by
  cases most <;> rfl

/-- A definition recast is a definition that is there, or it comes out of a thunk. -/
theorem Recast.there_or_forced {most : Nat} {definition other : Definition}
    (h : Recast host R most definition other) :
    (∃ keywords keywords', (∀ part ∈ keywords.parts, part.depth < definition.depth) ∧
      (∀ more, definition.unfold host more = pure keywords) ∧
      (∀ more, other.unfold host more = pure keywords') ∧
      Node.Recast host R (Recast host R maxThunkChain) keywords keywords') ∨
    ∃ less thunk, ∃ (yielded : σ → Definition) (after : σ → σ), most = less + 1 ∧
      other = deferred thunk ∧ ∀ env, thunk.force host env = .ok (yielded env) (after env) ∧
        R env (after env) ∧ Recast host R less definition (yielded env) := by
  have htype : ∀ (type : TypeName) (whole : Definition),
      ∀ part ∈ (Node.ofType type : Node Definition).parts, part.depth < whole.depth := by
    simp [Node.parts, Node.ofType]
  cases h with
  | same type =>
    exact .inl ⟨_, _, htype type _, fun more => unfold_shorthand more type,
      fun more => unfold_shorthand more type, Node.recast_ofType _ _ _ type⟩
  | spelled type =>
    exact .inl ⟨_, _, htype type _, fun more => unfold_shorthand more type,
      fun more => unfold_node more _, Node.recast_ofType _ _ _ type⟩
  | named type =>
    exact .inl ⟨_, _, htype type _, fun more => unfold_node more _,
      fun more => unfold_shorthand more type, Node.recast_ofType _ _ _ type⟩
  | node hbare hschema hitems heither =>
    exact .inl ⟨_, _, fun part => depth_lt_of_mem_parts, fun more => unfold_node more _,
      fun more => unfold_node more _, hbare, hschema, hitems, heither⟩
  | forced yielded after hforce hafter hyielded =>
    exact .inr ⟨_, _, yielded, after, rfl, rfl, fun env =>
      ⟨hforce env, hafter env, hyielded env⟩⟩

/-- **Definitions recast unfold to nodes that say the same**, the first without the host. -/
theorem Recast.unfold (hhost : host.Overlooks R) {most : Nat} {definition other : Definition}
    (h : Recast host R most definition other) (env : σ) :
    ∃ keywords keywords' env', (∀ part ∈ keywords.parts, part.depth < definition.depth) ∧
      (∀ more, definition.unfold host more = pure keywords) ∧
      other.unfold host most env = .ok keywords' env' ∧ R env env' ∧
      Node.Recast host R (Recast host R maxThunkChain) keywords keywords' := by
  induction most generalizing other env with
  | zero =>
    obtain ⟨keywords, keywords', hparts, hfirst, hsecond, hrecast⟩ | ⟨less, _, _, _, hmost, -⟩ :=
      h.there_or_forced
    · exact ⟨keywords, keywords', env, hparts, hfirst, congrFun (hsecond _) env, hhost.refl env,
        hrecast⟩
    · cases hmost
  | succ most ih =>
    obtain ⟨keywords, keywords', hparts, hfirst, hsecond, hrecast⟩ |
      ⟨_, thunk, yielded, after, ⟨⟩, rfl, hforced⟩ := h.there_or_forced
    · exact ⟨keywords, keywords', env, hparts, hfirst, congrFun (hsecond _) env, hhost.refl env,
        hrecast⟩
    · -- What the thunk yields has one thunk less in front of it.
      obtain ⟨hforce, hafter, hyielded⟩ := hforced env
      obtain ⟨keywords, keywords', env', hparts, hfirst, hsecond, henv, hrecast⟩ :=
        ih hyielded (after env)
      refine ⟨keywords, keywords', env', hparts, hfirst, ?_, hhost.trans hafter henv, hrecast⟩
      rw [Definition.unfold]
      simp only [bind, EStateM.bind, hforce, hsecond]

/-- The definition has at least so many thunks in a row, if they are forced from the given
state on. -/
inductive Chained (host : Host σ) : Nat → Definition → σ → Prop where
  | one {thunk : Thunk} {env : σ} : Chained host 1 (.deferred thunk) env
  | more {count : Nat} {thunk : Thunk} {next : Definition} {env env' : σ} :
      thunk.force host env = .ok next env' → Chained host count next env' →
      Chained host (count + 1) (.deferred thunk) env

/-- **One thunk too many** is a fault. -/
theorem Chained.unfold {most : Nat} {definition : Definition} {env : σ}
    (h : definition.Chained host (most + 1) env) :
    ∃ env', definition.unfold host most env =
      .error (.thunkChainTooDeep maxThunkChain) env' := by
  induction most generalizing definition env with
  | zero =>
    cases h with
    | one => exact ⟨env, rfl⟩
    | more _ hrest => cases hrest
  | succ most ih =>
    cases h with
    | more hforce hrest =>
      obtain ⟨env', hunfold⟩ := ih hrest
      refine ⟨env', ?_⟩
      rw [Definition.unfold]
      simp only [bind, EStateM.bind, hforce, hunfold]

end Definition

end Conform
