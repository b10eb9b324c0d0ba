import Conform.Proofs.Definition.Met
import Conform.Proofs.Validation.Comparison

/-!
# Checks of what corresponds correspond

A node is taken keyword by keyword, and a keyword reads the value, complains, and checks
the parts by the recursive check.  So if the recursive checks of corresponding values
correspond, at the value itself, one step on, and on the side, then so do the checks of
corresponding values against corresponding nodes.

## Main definitions

* `Scope.Matches`: nodes whose keywords correspond.
* `Scope.Enters`, `Scope.Admits`: recursive checks that correspond one step on, and wherever
  a node uses them.
* `Scope.Serves`: nodes whose keywords correspond, alternatives included.
* `Definition.Same`: one definition on both sides.

## Main results

* `Scope.Follows.node`: the checks of corresponding values against the nodes correspond.
-/

namespace Conform

/-- The same definition, good throughout. -/
def Definition.Same {σ : Type} (host : Host σ) (good : Definition → Prop) (d e : Definition) :
    Prop :=
  d = e ∧ d.Throughout host good

namespace Scope

open Check

variable {σ ι : Type} [Preorder ι]

/-! ## What is given -/

/-- The keywords of two nodes correspond, with parts that are related as definitions. -/
structure Matches (K : Scope σ ι) (host₁ host₂ : Host σ)
    (definitions : Definition → Definition → Prop) (i : ι) (a b : Resolved) : Prop where
  required : a.required = b.required
  strict : a.strict = b.strict
  kind : a.node.kind = b.node.kind
  allowed : a.node.allowed = b.node.allowed
  bounds : a.node.bounds = b.node.bounds
  require : a.node.require = b.node.require
  restrict : a.node.restrict = b.node.restrict
  either : Option.Rel (List.Forall₂ definitions) a.node.either b.node.either
  items : Option.Rel definitions a.node.items b.node.items
  schema : Option.Rel (fun f g : Fields Definition =>
    K.Runs i (Run.ofForcing (f.resolve host₁)) (Run.ofForcing (g.resolve host₂)) fun _ =>
      AlikeResult (List.Forall₂ fun x y => x.1 = y.1 ∧ definitions x.2 y.2))
    a.node.schema b.node.schema
  fallback : Option.Rel (fun f g : Fallback =>
    K.Runs i (f.produce host₁) (g.produce host₂) K.value) a.node.fallback b.node.fallback
  custom : Option.Rel (fun t u : Transform => ∀ j, i ≤ j → ∀ v w, K.value j v w →
    K.Runs j (t.apply host₁ v) (u.apply host₂ w) fun k => AlikeResult (K.value k))
    a.node.custom b.node.custom

theorem option_rel_imp {α β : Type} {R S : α → β → Prop} (h : ∀ a b, R a b → S a b)
    {x : Option α} {y : Option β} (hxy : Option.Rel R x y) : Option.Rel S x y := by
  cases hxy with
  | some hab => exact .some (h _ _ hab)
  | none => exact .none

theorem Matches.mono {K : Scope σ ι} {host₁ host₂ : Host σ}
    {definitions : Definition → Definition → Prop} {i j : ι} {a b : Resolved} (hij : i ≤ j)
    (h : K.Matches host₁ host₂ definitions i a b) : K.Matches host₁ host₂ definitions j a b :=
  { h with
    schema := option_rel_imp (fun _ _ hfields => hfields.mono hij) h.schema
    fallback := option_rel_imp (fun _ _ hproduce => hproduce.mono hij) h.fallback
    custom := option_rel_imp (fun _ _ happly k hjk => happly k (le_trans hij hjk)) h.custom }

/-- Recursive checks correspond wherever a node uses them. -/
structure Admits (K : Scope σ ι) (definitions : Definition → Definition → Prop)
    (R₁ R₂ : Recurse σ) (i : ι) : Prop where
  restores : ∀ v d, Restores (R₁ v d)
  /-- A container has been entered by both checks or by none. -/
  guard : ∀ j, i ≤ j → ∀ r s, K.ref j r s →
    (K.left.originOf r ∈ K.left.ancestors ↔ K.right.originOf s ∈ K.right.ancestors)
  /-- The value itself, against another definition. -/
  here : ∀ j, i ≤ j → ∀ v w, K.value j v w → ∀ d e, definitions d e →
    K.Follows j (R₁ v d) (R₂ w e) K.value
  /-- A part of a container that is entered. -/
  below : ∀ j, i ≤ j → ∀ r s, K.ref j r s → K.left.originOf r ∉ K.left.ancestors →
    ∀ accessor k, j ≤ k → ∀ v w, K.value k v w → ∀ d e, definitions d e →
      ((K.inside r s).under accessor).Follows k (R₁ v d) (R₂ w e) K.value
  /-- A copy of the value. -/
  aside : ∀ j, i ≤ j → ∀ v w, K.value j v w → ∀ d e, definitions d e →
    K.Follows j (tryAlternative R₁ v d) (tryAlternative R₂ w e) fun _ => Eq

theorem Admits.mono {K : Scope σ ι} {definitions : Definition → Definition → Prop}
    {R₁ R₂ : Recurse σ} {i j : ι} (hij : i ≤ j) (h : K.Admits definitions R₁ R₂ i) :
    K.Admits definitions R₁ R₂ j where
  restores := h.restores
  guard := fun k hjk => h.guard k (le_trans hij hjk)
  here := fun k hjk => h.here k (le_trans hij hjk)
  below := fun k hjk => h.below k (le_trans hij hjk)
  aside := fun k hjk => h.aside k (le_trans hij hjk)

/-- Recursive checks of the parts of a container correspond. -/
structure Enters (K : Scope σ ι) (definitions : Definition → Definition → Prop)
    (R₁ R₂ : Recurse σ) (i : ι) : Prop where
  restores : ∀ v d, Restores (R₁ v d)
  /-- A container has been entered by both checks or by none. -/
  guard : ∀ j, i ≤ j → ∀ r s, K.ref j r s →
    (K.left.originOf r ∈ K.left.ancestors ↔ K.right.originOf s ∈ K.right.ancestors)
  below : ∀ j, i ≤ j → ∀ r s, K.ref j r s → K.left.originOf r ∉ K.left.ancestors →
    ∀ accessor k, j ≤ k → ∀ v w, K.value k v w → ∀ d e, definitions d e →
      ((K.inside r s).under accessor).Follows k (R₁ v d) (R₂ w e) K.value

theorem Admits.enters {K : Scope σ ι} {definitions : Definition → Definition → Prop}
    {R₁ R₂ : Recurse σ} {i : ι} (h : K.Admits definitions R₁ R₂ i) : K.Enters definitions R₁ R₂ i :=
  ⟨h.restores, h.guard, h.below⟩

theorem Enters.mono {K : Scope σ ι} {definitions : Definition → Definition → Prop}
    {R₁ R₂ : Recurse σ} {i j : ι} (hij : i ≤ j) (h : K.Enters definitions R₁ R₂ i) :
    K.Enters definitions R₁ R₂ j where
  restores := h.restores
  guard := fun k hjk => h.guard k (le_trans hij hjk)
  below := fun k hjk => h.below k (le_trans hij hjk)

/-- The keywords of two nodes correspond, and so do the checks of their alternatives, which
are asked for where there is a value. -/
structure Serves (K : Scope σ ι) (host₁ host₂ : Host σ)
    (definitions : Definition → Definition → Prop) (R₁ R₂ : Recurse σ) (i : ι)
    (a b : Resolved) : Prop where
  keywords : K.Matches host₁ host₂ definitions i a b
  either : ∀ j, i ≤ j → ∀ v w, K.value j v w → v.isAbsent = false →
    K.Follows j (Check.either R₁ a v) (Check.either R₂ b w) K.value

theorem Serves.mono {K : Scope σ ι} {host₁ host₂ : Host σ}
    {definitions : Definition → Definition → Prop} {R₁ R₂ : Recurse σ} {i j : ι} {a b : Resolved}
    (hij : i ≤ j) (h : K.Serves host₁ host₂ definitions R₁ R₂ i a b) :
    K.Serves host₁ host₂ definitions R₁ R₂ j a b :=
  ⟨h.keywords.mono hij, fun k hjk => h.either k (le_trans hij hjk)⟩

variable {K : Scope σ ι} {i j : ι}

/-! ## One definition on both sides -/

section Same

variable {host : Host σ} {good : Definition → Prop}

theorem option_rel_self {α : Type} {R : α → α → Prop} {x : Option α}
    (h : ∀ a, x = some a → R a a) : Option.Rel R x x := by
  cases x with
  | none => exact .none
  | some a => exact .some (h a rfl)

/-- Producing leaves the two in worlds where they may be, with the same outcome. -/
def Forces (K : Scope σ ι) (i : ι) {α : Type} (m : Forcing σ α) : Prop :=
  ∀ j, i ≤ j → ∀ w₁ w₂, K.world j w₁ w₂ →
    m.outcome w₁.env = m.outcome w₂.env ∧ K.world j (Run.ofForcing m w₁).2 (Run.ofForcing m w₂).2

theorem Forces.runs {α : Type} {m : Forcing σ α} {P : ι → α → α → Prop} (hm : K.Forces i m)
    (h : ∀ j, i ≤ j → ∀ env a env', m env = .ok a env' → P j a a) :
    K.Runs i (Run.ofForcing m) (Run.ofForcing m) fun j => AlikeResult (P j) := by
  intro j hij w₁ w₂ hworld
  obtain ⟨houtcome, hworld'⟩ := hm j hij w₁ w₂ hworld
  refine ⟨j, le_refl j, hworld', ?_⟩
  rw [Run.fst_ofForcing, Run.fst_ofForcing, ← houtcome]
  cases h' : m.outcome w₁.env with
  | error fault => exact .error
  | ok a =>
    obtain ⟨env', hok⟩ := Forcing.outcome_eq_ok.1 h'
    exact .ok (h j hij _ a env' hok)

/-- The keywords of a definition that is good throughout correspond to themselves, if
what they produce does. -/
theorem matches_self {resolved : Resolved}
    (h : Definition.Throughout host good (.node resolved.node))
    (hschema : ∀ fields, resolved.node.schema = some fields → K.Forces i (fields.resolve host))
    (hfallback : ∀ fallback, resolved.node.fallback = some fallback →
      K.Runs i (fallback.produce host) (fallback.produce host) K.value)
    (hcustom : ∀ transform, resolved.node.custom = some transform → ∀ j, i ≤ j → ∀ v w,
      K.value j v w → K.Runs j (transform.apply host v) (transform.apply host w)
        fun k => AlikeResult (K.value k)) :
    K.Matches host host (Definition.Same host good) i resolved resolved where
  required := rfl
  strict := rfl
  kind := rfl
  allowed := rfl
  bounds := rfl
  require := rfl
  restrict := rfl
  either := option_rel_self fun _ heither => List.forall₂_same.2 fun _ hmem =>
    ⟨rfl, h.of_met (.alternative .refl heither hmem)⟩
  items := option_rel_self fun _ hitems => ⟨rfl, h.of_met (.item .refl hitems)⟩
  schema := option_rel_self fun fields hfields =>
    (hschema fields hfields).runs fun _ _ _ _ _ hresolve => List.forall₂_same.2 fun _ hfield =>
      ⟨rfl, rfl, h.of_met (.field .refl hfields hresolve hfield)⟩
  fallback := option_rel_self hfallback
  custom := option_rel_self hcustom

/-- Resolving leads to what is good throughout. -/
theorem runs_resolve {policy : Policy} {d : Definition} (hd : d.Throughout host good)
    (hforces : K.Forces i (resolve host policy d))
    (hmatches : ∀ j, i ≤ j → ∀ resolved : Resolved,
      Definition.Throughout host good (.node resolved.node) →
        K.Matches host host (Definition.Same host good) j resolved resolved) :
    K.Runs i (Run.ofForcing (resolve host policy d)) (Run.ofForcing (resolve host policy d))
      fun j => AlikeResult (K.Matches host host (Definition.Same host good) j) :=
  hforces.runs fun j hij _ resolved _ hresolve =>
    hmatches j hij resolved (hd.of_met (Definition.met_resolve hresolve).1)

end Same

/-! ## Changes of corresponding containers -/

theorem world_insertField {w₁ w₂ : World σ} {r s : Ref} {v w : Value} (hworld : K.world i w₁ w₂)
    (hrs : K.ref i r s) (name : String) (hvw : K.value i v w) :
    K.world i ⟨w₁.heap.insertField r name v, w₁.env⟩ ⟨w₂.heap.insertField s name w, w₂.env⟩ := by
  rw [Heap.insertField_eq_store, Heap.insertField_eq_store]
  exact K.store hworld hrs ((K.agree hworld r s hrs).insertField name hvw)

theorem world_setItem {w₁ w₂ : World σ} {r s : Ref} {v w : Value} (hworld : K.world i w₁ w₂)
    (hrs : K.ref i r s) (index : Nat) (hvw : K.value i v w) :
    K.world i ⟨w₁.heap.setItem r index v, w₁.env⟩ ⟨w₂.heap.setItem s index w, w₂.env⟩ := by
  rw [Heap.setItem_eq_store, Heap.setItem_eq_store]
  exact K.store hworld hrs ((K.agree hworld r s hrs).setItem index hvw)

theorem forall₂_zipIdx {α β : Type} {R : α → β → Prop} {xs : List α} {ys : List β}
    (h : List.Forall₂ R xs ys) (n : Nat) :
    List.Forall₂ (fun x y => R x.1 y.1 ∧ x.2 = y.2) (xs.zipIdx n) (ys.zipIdx n) := by
  induction h generalizing n with
  | nil => exact .nil
  | cons hxy _ ih => exact .cons ⟨hxy, rfl⟩ (ih (n + 1))

namespace Follows

variable {host₁ host₂ : Host σ} {definitions : Definition → Definition → Prop}
  {a b : Resolved} {v w : Value}

/-- A value is passed on. -/
theorem returns {m₁ m₂ : Check σ Unit} (hvw : K.value i v w)
    (h : K.Follows i m₁ m₂ fun _ _ _ => True) :
    K.Follows i (do m₁; return v) (do m₂; return w) K.value :=
  bind h (fun _ => .pure _) fun _ hij _ _ _ => pure fun _ hjk =>
    K.value_mono (le_trans hij hjk) hvw

/-! ## Scalars -/

theorem type (hkind : a.node.kind = b.node.kind) (hvw : K.value i v w) :
    K.Follows i (Check.type a v) (Check.type b w) K.value := by
  have hmoment : moment? v = moment? w := by cases hvw <;> rfl
  unfold Check.type
  rw [← hkind, ← hmoment]
  cases a.node.kind with
  | none => exact pure fun _ hij => K.value_mono hij hvw
  | some kind =>
    by_cases hdate : kind = .dateTime
    · subst hdate
      cases moment? v with
      | none => exact returns hvw (report _ _)
      | some moment => exact pure fun _ _ => .scalar rfl
    · have htype : hasType kind v = hasType kind w := by cases hvw <;> cases kind <;> rfl
      have hdemand : K.Follows i (do Check.demand (hasType kind v) (.wrongType kind); return v)
          (do Check.demand (hasType kind w) (.wrongType kind); return w) K.value := by
        rw [htype]
        exact returns hvw (demand _ _)
      cases kind with
      | dateTime => exact absurd rfl hdate
      | _ => exact hdemand

theorem oneOf (hallowed : a.node.allowed = b.node.allowed) (hvw : K.value i v w) :
    K.Follows i (Check.oneOf a v) (Check.oneOf b w) K.value := by
  unfold Check.oneOf
  rw [← hallowed]
  cases a.node.allowed with
  | none => exact pure fun _ hij => K.value_mono hij hvw
  | some allowed =>
    refine bind (P := fun _ => Eq) (readHeap fun j hij w₁ w₂ hworld => ?_)
      (fun _ => .bind (.demand _ _) fun _ => .pure _) ?_
    · have hequal : ∀ json, v.equalsJson w₁.heap json = w.equalsJson w₂.heap json := fun json =>
        Value.equalsJson_eq (K.agree hworld) json (K.value_mono hij hvw)
      simp only [hequal]
    · rintro j hij found _ rfl
      exact returns (K.value_mono hij hvw) (demand _ _)

theorem bounds (hbounds : a.node.bounds = b.node.bounds) (hkind : a.node.kind = b.node.kind)
    (hvw : K.value i v w) : K.Follows i (Check.bounds a v) (Check.bounds b w) K.value := by
  unfold Check.bounds
  rw [← hbounds, ← hkind]
  cases a.node.bounds with
  | none => exact pure fun _ hij => K.value_mono hij hvw
  | some bounds =>
    cases hvw with
    | @scalar v hnone =>
      cases v with
      | number x =>
        refine returns (.scalar rfl) (forM (R := Eq) (List.forall₂_same.2 fun _ _ => rfl)
          (fun _ => .demand _ _) ?_)
        rintro bound _ rfl
        exact demand _ _
      | _ => exact returns (.scalar hnone) (demand _ _)
    | array hrs => exact returns (.array hrs) (demand _ _)
    | object hrs => exact returns (.object hrs) (demand _ _)

/-! ## Objects -/

theorem withObject {m₁ m₂ : Ref → Check σ Unit} (hkind : a.node.kind = b.node.kind)
    (hvw : K.value i v w)
    (h : ∀ r s, K.ref i r s → K.Follows i (m₁ r) (m₂ s) fun _ _ _ => True) :
    K.Follows i (Check.withObject a v m₁) (Check.withObject b w m₂) K.value := by
  unfold Check.withObject
  rw [← hkind]
  cases hvw with
  | @scalar v hnone =>
    cases v with
    | object r => cases hnone
    | _ => exact returns (.scalar hnone) (demand _ _)
  | array hrs => exact returns (.array hrs) (demand _ _)
  | object hrs => exact returns (.object hrs) (h _ _ hrs)

/-- What the object holds under a name, if anything. -/
theorem readField {r s : Ref} (hrs : K.ref i r s) (name : String) :
    K.Follows i (Check.readHeap fun heap => (heap.fields r).get? name)
      (Check.readHeap fun heap => (heap.fields s).get? name) fun k => Option.Rel (K.value k) := by
  refine readHeap fun j hij w₁ w₂ hworld => ?_
  have hfields := (K.agree hworld r s (K.ref_mono hij hrs)).fields
  exact hfields.get?_rel name

theorem hasField {r s : Ref} (hrs : K.ref i r s) (name : String) :
    K.Follows i (Check.hasField r name) (Check.hasField s name) fun _ => Eq := by
  refine readHeap fun j hij w₁ w₂ hworld => ?_
  have hfields := (K.agree hworld r s (K.ref_mono hij hrs)).fields
  exact congrArg not (Value.Alike.getD_null (hfields.get?_rel name)).isAbsent_eq

theorem require (hrequire : a.node.require = b.node.require) (hkind : a.node.kind = b.node.kind)
    (hvw : K.value i v w) : K.Follows i (Check.require a v) (Check.require b w) K.value := by
  unfold Check.require
  rw [← hrequire]
  cases a.node.require with
  | none => exact pure fun _ hij => K.value_mono hij hvw
  | some names =>
    refine withObject hkind hvw fun r s hrs => forM (R := Eq) (List.forall₂_same.2 fun _ _ => rfl)
      (fun _ => .bind (.readHeap _) fun _ => .demandAt _ _ _) ?_
    rintro name _ rfl
    refine bind (hasField hrs name) (fun _ => .demandAt _ _ _) ?_
    rintro j _ present _ rfl
    exact demandAt _ _ _

theorem restrict (hrestrict : a.node.restrict = b.node.restrict)
    (hkind : a.node.kind = b.node.kind) (hvw : K.value i v w) :
    K.Follows i (Check.restrict a v) (Check.restrict b w) K.value := by
  unfold Check.restrict
  rw [← hrestrict]
  cases a.node.restrict with
  | none => exact pure fun _ hij => K.value_mono hij hvw
  | some names =>
    refine withObject hkind hvw fun r s hrs => forM (R := Eq) (List.forall₂_same.2 fun _ _ => rfl)
      (fun _ => .bind (.readHeap _) fun _ => .demandAt _ _ _) ?_
    rintro name _ rfl
    refine bind (hasField hrs name) (fun _ => .demandAt _ _ _) ?_
    rintro j _ present _ rfl
    exact demandAt _ _ _

/-- Complaints about fields that are not declared. -/
theorem undeclared {r s : Ref} (hrs : K.ref i r s) (declared : List String) :
    K.Follows i (Check.undeclared r declared) (Check.undeclared s declared) fun _ _ _ => True := by
  refine bind (P := fun _ => Eq) (readHeap fun j hij w₁ w₂ hworld => ?_)
    (fun _ => .forM fun _ _ => .demandAt _ _ _) ?_
  · have hfields := (K.agree hworld r s (K.ref_mono hij hrs)).fields
    exact Entries.Alongside.keys_eq hfields
  · rintro j _ names _ rfl
    refine forM (R := Eq) (List.forall₂_same.2 fun _ _ => rfl) (fun _ => .demandAt _ _ _) ?_
    rintro name _ rfl
    exact demandAt _ _ _

/-! ## Parts -/

section Parts

variable {R₁ R₂ : Recurse σ} {r s : Ref} {d e : Definition}
  (hrs : K.ref i r s)
include hrs

theorem field (hrestores : ∀ v d, Restores (R₁ v d)) (name : String)
    (hbelow : ∀ k, i ≤ k → ∀ v w, K.value k v w →
      (K.under (.key name)).Follows k (R₁ v d) (R₂ w e) K.value) :
    K.Follows i (Check.field R₁ r name d) (Check.field R₂ s name e) fun _ _ _ => True := by
  refine bind (readField hrs name) (fun _ => .bind (.under _ (hrestores _ _)) fun _ =>
    .ite (.changeHeap _) (.pure _)) ?_
  intro j hij x y hxy
  refine bind (under _ (hbelow j hij _ _ (Value.Alike.getD_null hxy)))
    (fun _ => .ite (.changeHeap _) (.pure _)) ?_
  intro k hjk v w hvw
  have hsome : x.isSome = y.isSome := by cases hxy <;> rfl
  refine ite (by rw [hsome, hvw.isAbsent_eq]) (fun _ => ?_) fun _ => pure fun _ _ => trivial
  refine changeHeap (fun _ _ => trivial) fun l hkl w₁ w₂ hworld => ?_
  exact world_insertField hworld (K.ref_mono (le_trans (le_trans hij hjk) hkl) hrs) name
    (K.value_mono hkl hvw)

theorem item (hvw : K.value i v w) (index : Nat)
    (hbelow : ∀ k, i ≤ k → ∀ v w, K.value k v w →
      (K.under (.index index)).Follows k (R₁ v d) (R₂ w e) K.value) :
    K.Follows i (Check.item R₁ r d v index) (Check.item R₂ s e w index) fun _ _ _ => True := by
  refine bind (under _ (hbelow i (le_refl i) _ _ hvw)) (fun _ => .changeHeap _) ?_
  intro j hij v w hvw
  refine changeHeap (fun _ _ => trivial) fun k hjk w₁ w₂ hworld => ?_
  exact world_setItem hworld (K.ref_mono (le_trans hij hjk) hrs) index (K.value_mono hjk hvw)

theorem entry (name : String) (hvw : K.value i v w)
    (hbelow : ∀ k, i ≤ k → ∀ v w, K.value k v w →
      (K.under (.key name)).Follows k (R₁ v d) (R₂ w e) K.value) :
    K.Follows i (Check.entry R₁ r d name v) (Check.entry R₂ s e name w) fun _ _ _ => True := by
  refine bind (under _ (hbelow i (le_refl i) _ _ hvw)) (fun _ => .changeHeap _) ?_
  intro j hij v w hvw
  refine changeHeap (fun _ _ => trivial) fun k hjk w₁ w₂ hworld => ?_
  exact world_insertField hworld (K.ref_mono (le_trans hij hjk) hrs) name (K.value_mono hjk hvw)

end Parts

/-! ## Keywords with sub-definitions -/

section Keywords

variable {R₁ R₂ : Recurse σ}

section Parts

variable (henters : K.Enters definitions R₁ R₂ i)
include henters

theorem schema (hmatches : K.Matches host₁ host₂ definitions i a b) (hvw : K.value i v w) :
    K.Follows i (Check.schema host₁ R₁ a v) (Check.schema host₂ R₂ b w) K.value := by
  have hschema := hmatches.schema
  have hrestores := henters.restores
  unfold Check.schema
  rw [← hmatches.strict]
  revert hschema
  generalize a.node.schema = x
  generalize b.node.schema = y
  intro hschema
  cases hschema with
  | none => exact pure fun _ hij => K.value_mono hij hvw
  | @some f g hfields =>
    refine withObject hmatches.kind hvw fun r s hrs => ?_
    -- If the second check stops at one of the fields, the first goes through all of this.
    have hinside : ∀ declared : List (String × Definition), Restores (do
        declared.forM fun field => Check.field R₁ r field.1 field.2
        if a.strict then Check.undeclared r (declared.map Prod.fst) else Pure.pure ()) := by
      intro declared
      refine .bind (.forM fun _ _ => .field hrestores _ _ _) fun _ => .ite ?_ (.pure _)
      exact .bind (.readHeap _) fun _ => .forM fun _ _ => .demandAt _ _ _
    refine bind (ofForcing (fun _ h => h) hfields) (fun declared => .inside _ (hinside _)) ?_
    intro j hij xs ys hxs
    refine inside (henters.guard j hij _ _ (K.ref_mono hij hrs)) (hinside _) fun hnew => ?_
    -- Fields of the same names are declared, and so the same fields are undeclared.
    have hnames : xs.map Prod.fst = ys.map Prod.fst := by
      refine List.forall₂_eq_eq_eq ▸ ?_
      exact List.forall₂_map_left_iff.2 (List.forall₂_map_right_iff.2
        (hxs.imp fun _ _ hxy => hxy.1))
    refine bind (P := fun _ _ _ => True) ?_ (fun _ => .ite ?_ (.pure _)) ?_
    · refine forM hxs (fun _ => .field hrestores _ _ _) ?_
      rintro ⟨name, d⟩ ⟨_, e⟩ ⟨rfl, hde⟩
      exact field (K := K.inside r s) (K.ref_mono hij hrs) hrestores name fun k hjk v w hvw =>
        henters.below j hij r s (K.ref_mono hij hrs) hnew _ k hjk v w hvw d e hde
    · exact .bind (.readHeap _) fun _ => .forM fun _ _ => .demandAt _ _ _
    · intro k hjk _ _ _
      rw [hnames]
      exact ite Iff.rfl (fun _ => undeclared (K := K.inside r s)
        (K.ref_mono (le_trans hij hjk) hrs) _) fun _ => pure fun _ _ => trivial

theorem items (hitems : Option.Rel definitions a.node.items b.node.items)
    (hvw : K.value i v w) : K.Follows i (Check.items R₁ a v) (Check.items R₂ b w) K.value := by
  have hrestores := henters.restores
  unfold Check.items
  revert hitems
  generalize a.node.items = x
  generalize b.node.items = y
  intro hitems
  cases hitems with
  | none => exact pure fun _ hij => K.value_mono hij hvw
  | @some d e hde =>
    -- Corresponding values are both arrays, both objects, or the same scalar.
    cases hvw with
    | @scalar v hnone =>
      cases v with
      | array r => cases hnone
      | object r => cases hnone
      | _ => exact returns (.scalar hnone) (report _ _)
    | @array r s hrs =>
      refine returns (.array hrs) (inside (henters.guard i (le_refl i) _ _ hrs)
        (.bind (.readHeap _) fun _ => .forM fun _ _ => .item _ hrestores _ _ _) fun hnew => ?_)
      -- The items are read before the loop, which may change the arrays.
      refine bind (P := fun k => List.Forall₂ (K.value k))
        (readHeap fun j hij w₁ w₂ hworld => (K.agree hworld r s (K.ref_mono hij hrs)).items)
        (fun _ => .forM fun _ _ => .item _ hrestores _ _ _) ?_
      intro j hij xs ys hxs
      refine forM (forall₂_zipIdx hxs 0) (fun _ => .item _ hrestores _ _ _) ?_
      rintro ⟨v, index⟩ ⟨w, _⟩ ⟨hvw, rfl⟩
      exact item (K := K.inside r s) (K.ref_mono hij hrs) hvw index fun k hjk v w hvw =>
        henters.below i (le_refl i) r s hrs hnew _ k (le_trans hij hjk) v w hvw d e hde
    | @object r s hrs =>
      refine returns (.object hrs) (inside (henters.guard i (le_refl i) _ _ hrs)
        (.bind (.readHeap _) fun _ => .forM fun _ _ => .entry _ hrestores _ _ _) fun hnew => ?_)
      refine bind (P := fun k => Entries.Alike (K.ref k))
        (readHeap fun j hij w₁ w₂ hworld => (K.agree hworld r s (K.ref_mono hij hrs)).fields)
        (fun _ => .forM fun _ _ => .entry _ hrestores _ _ _) ?_
      intro j hij xs ys hxs
      refine forM hxs (fun _ => .entry _ hrestores _ _ _) ?_
      rintro ⟨name, v⟩ ⟨_, w⟩ ⟨rfl, hvw⟩
      exact entry (K := K.inside r s) (K.ref_mono hij hrs) name hvw fun k hjk v w hvw =>
        henters.below i (le_refl i) r s hrs hnew _ k (le_trans hij hjk) v w hvw d e hde

end Parts

/-- Alternatives of corresponding values correspond, if each does on the values themselves and
on copies. -/
theorem alternatives (hrestores : ∀ v d, Restores (R₁ v d))
    (hhere : ∀ j, i ≤ j → ∀ d e, definitions d e → K.Follows j (R₁ v d) (R₂ w e) K.value)
    (haside : ∀ j, i ≤ j → ∀ d e, definitions d e →
      K.Follows j (tryAlternative R₁ v d) (tryAlternative R₂ w e) fun _ => Eq)
    (failures : List (List Violation)) {ds es : List Definition}
    (hds : List.Forall₂ definitions ds es) (hvw : K.value i v w) :
    K.Follows i (Check.alternatives R₁ v failures ds) (Check.alternatives R₂ w failures es)
      K.value := by
  induction hds generalizing i failures with
  | nil => exact returns hvw (report _ _)
  | @cons d e ds es hde _ ih =>
    -- The trials find the same violations, and so both checks go on in the same way.
    refine bind (haside i (le_refl i) _ _ hde)
      (fun _ => .ite (hrestores _ _) (.alternatives _ hrestores _ _)) ?_
    rintro j hij violations _ rfl
    exact ite Iff.rfl (fun _ => hhere j hij _ _ hde) fun _ =>
      ih (fun k hjk => hhere k (le_trans hij hjk)) (fun k hjk => haside k (le_trans hij hjk)) _
        (K.value_mono hij hvw)

theorem either (hrestores : ∀ v d, Restores (R₁ v d))
    (hhere : ∀ j, i ≤ j → ∀ d e, definitions d e → K.Follows j (R₁ v d) (R₂ w e) K.value)
    (haside : ∀ j, i ≤ j → ∀ d e, definitions d e →
      K.Follows j (tryAlternative R₁ v d) (tryAlternative R₂ w e) fun _ => Eq)
    (heither : Option.Rel (List.Forall₂ definitions) a.node.either b.node.either)
    (hvw : K.value i v w) : K.Follows i (Check.either R₁ a v) (Check.either R₂ b w) K.value := by
  unfold Check.either
  revert heither
  generalize a.node.either = x
  generalize b.node.either = y
  intro heither
  cases heither with
  | none => exact pure fun _ hij => K.value_mono hij hvw
  | some hds => exact alternatives hrestores hhere haside [] hds hvw

theorem custom (hmatches : K.Matches host₁ host₂ definitions i a b) (hvw : K.value i v w) :
    K.Follows i (Check.custom host₁ a v) (Check.custom host₂ b w) K.value := by
  have hcustom := hmatches.custom
  unfold Check.custom
  revert hcustom
  generalize a.node.custom = x
  generalize b.node.custom = y
  intro hcustom
  cases hcustom with
  | none => exact pure fun _ hij => K.value_mono hij hvw
  | @some t u happly =>
    refine bind (ofRun (happly i (le_refl i) v w hvw)) (fun result => ?_) ?_
    · cases result with
      | ok value => exact .pure _
      | error reason => exact .bind (.report _ _) fun _ => .pure _
    intro j hij result _ hresult
    cases hresult with
    | ok hvw' => exact pure fun _ hjk => K.value_mono hjk hvw'
    | error => exact returns (K.value_mono hij hvw) (report _ _)

end Keywords

/-! ## Nodes -/

/-- Where the defaults correspond, so do the values they stand in for. -/
theorem supply (hmatches : K.Matches host₁ host₂ definitions i a b) (hvw : K.value i v w)
    (hrefused : v.isAbsent = true → (K.left.atRoot && !K.left.options.policy.allowRootDefault) =
      (K.right.atRoot && !K.right.options.policy.allowRootDefault)) :
    K.Follows i (Check.supply host₁ a v) (Check.supply host₂ b w) K.value := by
  have hfallback := hmatches.fallback
  have hkeep : ∀ (x y : Value), K.value i x y → K.Follows i (Pure.pure x) (Pure.pure y) K.value :=
    fun _ _ hxy => pure fun _ hij => K.value_mono hij hxy
  unfold Check.supply
  revert hfallback
  generalize a.node.fallback = x
  generalize b.node.fallback = y
  intro hfallback
  -- A default stands in for null alone; all other values are passed on.
  cases hfallback with
  | none => cases hvw with
    | @scalar v hnone => cases v <;> exact hkeep _ _ (.scalar hnone)
    | array hrs => exact hkeep _ _ (.array hrs)
    | object hrs => exact hkeep _ _ (.object hrs)
  | some hproduce => cases hvw with
    | array hrs => exact hkeep _ _ (.array hrs)
    | object hrs => exact hkeep _ _ (.object hrs)
    | @scalar v hnone => cases v with
      | null =>
        refine bind (P := fun _ x y =>
            x = (K.left.atRoot && !K.left.options.policy.allowRootDefault) ∧ y = x)
          (readContext (fun _ => rfl) (fun _ => rfl) fun _ _ => ⟨rfl, (hrefused rfl).symm⟩)
          (fun _ => .ite (.bind (.readContext _) fun _ => .throw _) (.ofRun _)) ?_
        rintro j hij refused _ ⟨-, rfl⟩
        refine ite Iff.rfl (fun _ => ?_) fun _ => ofRun (hproduce.mono hij)
        refine bind (P := fun _ => Eq)
          (readContext (fun _ => rfl) (fun _ => rfl) fun _ _ => K.pathText_eq)
          (fun _ => .throw _) ?_
        rintro k _ path _ rfl
        exact throw fun h => nomatch h
      | _ => exact hkeep _ _ (.scalar hnone)

/-! ## Values that are there -/

theorem gives_pure {value : Value} {Q : Value → Prop} (h : Q value) :
    Gives (Pure.pure value : Check σ Value) Q := by
  rintro _ _ _ ⟨⟩
  exact h

/-- What is returned after something else. -/
theorem gives_returns {m : Check σ Unit} {value : Value} {Q : Value → Prop} (h : Q value) :
    Gives (do m; return value) Q := by
  intro session result after hok
  simp only [Bind.bind, EStateM.bind] at hok
  split at hok <;> cases hok
  exact h

/-- A value that is there has a type, or is turned into a moment. -/
theorem gives_type {resolved : Resolved} {value : Value} (hpresent : value.isAbsent = false) :
    Gives (Check.type resolved value : Check σ Value) fun result => result.isAbsent = false := by
  unfold Check.type
  split
  · exact gives_pure hpresent
  · split
    · exact gives_pure rfl
    · exact gives_returns hpresent
  · exact gives_returns hpresent

theorem gives_oneOf {resolved : Resolved} {value : Value} {Q : Value → Prop} (h : Q value) :
    Gives (Check.oneOf resolved value : Check σ Value) Q := by
  unfold Check.oneOf
  split
  · exact gives_pure h
  · exact fun session => gives_returns h session

theorem gives_bounds {resolved : Resolved} {value : Value} {Q : Value → Prop} (h : Q value) :
    Gives (Check.bounds resolved value : Check σ Value) Q := by
  unfold Check.bounds
  split
  · exact gives_pure h
  · exact gives_returns h
  · exact gives_returns h

section Nodes

variable {R₁ R₂ : Recurse σ} (henters : K.Enters definitions R₁ R₂ i)
include henters

/-- Corresponding values meet corresponding demands alike, if they do so for the alternatives. -/
theorem demands_of_serves (hserves : K.Serves host₁ host₂ definitions R₁ R₂ i a b)
    (hvw : K.value i v w) :
    K.Follows i (Check.demands host₁ R₁ a v) (Check.demands host₂ R₂ b w) K.value := by
  have hmatches := hserves.keywords
  have hkeyword : ∀ {keyword : Demand σ}, keyword ∈ keywords host₁ R₁ → ∀ v,
      Restores (keyword a v) := fun hkeyword _ => .keyword _ _ henters.restores hkeyword
  unfold Check.demands
  refine ite (by rw [hvw.isAbsent_eq]) (fun _ => ?_) fun hpresent => ?_
  · rw [hmatches.required]
    exact returns hvw (demand _ _)
  · -- There is a value, and there still is one when it comes to the alternatives.
    let before : List (Demand σ) := [Check.type, Check.oneOf, Check.bounds]
    let after (host : Host σ) (R : Recurse σ) : List (Demand σ) :=
      [Check.schema host R, Check.require, Check.restrict, Check.items R, Check.custom host]
    have hsplit : ∀ host R, keywords host R = before ++ Check.either R :: after host R :=
      fun _ _ => rfl
    simp only [hsplit, List.foldlM_append, List.foldlM_cons]
    have hrest : ∀ v, Restores ((after host₁ R₁).foldlM (fun v keyword => keyword a v) v) :=
      fun v => .foldlM (fun v _ hmem => hkeyword
        (List.mem_append_right before (List.mem_cons_of_mem _ hmem)) v) v
    refine bind (P := fun j v w => K.value j v w ∧ v.isAbsent = false) ?_
      (fun _ => .bind (.either _ _ henters.restores) hrest) ?_
    · refine foldlM (R := fun d₁ d₂ => ∀ j, i ≤ j → ∀ v w, K.value j v w → v.isAbsent = false →
        K.Follows j (d₁ a v) (d₂ b w) fun j v w => K.value j v w ∧ v.isAbsent = false)
        (fun hjk hvw => ⟨K.value_mono hjk hvw.1, hvw.2⟩) ?_
        (fun v _ hmem => hkeyword (List.mem_append_left _ hmem) v)
        (fun j hij _ _ h v w hvw => h j hij v w hvw.1 hvw.2) ⟨hvw, Bool.eq_false_iff.2 hpresent⟩
      refine .cons (fun _ _ _ _ hvw hpresent =>
          (type hmatches.kind hvw).ensuring (gives_type hpresent)) <|
        .cons (fun _ _ _ _ hvw hpresent =>
          (oneOf hmatches.allowed hvw).ensuring (gives_oneOf hpresent)) <|
        .cons (fun _ _ _ _ hvw hpresent =>
          (bounds hmatches.bounds hmatches.kind hvw).ensuring (gives_bounds hpresent)) .nil
    · rintro j hij v w ⟨hvw, hpresent⟩
      refine bind (hserves.either j hij v w hvw hpresent) hrest ?_
      intro k hjk v w hvw
      -- Each keyword begins with the values that the one before has left, at a later moment.
      have hik := le_trans hij hjk
      refine foldlM (V := K.value) (R := fun d₁ d₂ => ∀ l, k ≤ l → ∀ v w, K.value l v w →
        K.Follows l (d₁ a v) (d₂ b w) K.value) (fun hjk hvw => K.value_mono hjk hvw) ?_
        (fun v _ hmem => hkeyword (List.mem_append_right before (List.mem_cons_of_mem _ hmem)) v)
        (fun j hij _ _ h v w => h j hij v w) hvw
      refine .cons (fun _ hkl _ _ => schema (henters.mono (le_trans hik hkl))
          (hmatches.mono (le_trans hik hkl))) <|
        .cons (fun _ _ _ _ => require hmatches.require hmatches.kind) <|
        .cons (fun _ _ _ _ => restrict hmatches.restrict hmatches.kind) <|
        .cons (fun _ hkl _ _ => items (henters.mono (le_trans hik hkl)) hmatches.items) <|
        .cons (fun _ hkl _ _ => custom (hmatches.mono (le_trans hik hkl))) .nil

/-- Checks of corresponding values against corresponding nodes correspond, if they do so for
the alternatives. -/
theorem node_of_serves {d e : Definition}
    (hresolve : K.Runs i (Run.ofForcing (resolve host₁ K.left.options.policy d))
      (Run.ofForcing (resolve host₂ K.right.options.policy e)) fun j =>
        AlikeResult (K.Serves host₁ host₂ definitions R₁ R₂ j))
    (hrefused : v.isAbsent = true → (K.left.atRoot && !K.left.options.policy.allowRootDefault) =
      (K.right.atRoot && !K.right.options.policy.allowRootDefault)) (hvw : K.value i v w) :
    K.Follows i (Check.node host₁ R₁ v d) (Check.node host₂ R₂ w e) K.value := by
  have hrestores := henters.restores
  refine bind (P := fun _ p q => p = K.left.options.policy ∧ q = K.right.options.policy)
    (readContext (fun _ => rfl) (fun _ => rfl) fun _ _ => ⟨rfl, rfl⟩)
    (fun _ => .bind (.ofForcing _) fun _ => .bind (.supply _ _) fun _ =>
      .demands _ _ hrestores) ?_
  rintro j hij _ _ ⟨rfl, rfl⟩
  refine bind (ofForcing (fun hjk h => h.mono hjk) (hresolve.mono hij))
    (fun _ => .bind (.supply _ _) fun _ => .demands _ _ hrestores) ?_
  intro k hjk a b hserves
  refine bind (supply hserves.keywords (K.value_mono (le_trans hij hjk) hvw) hrefused)
    (fun _ => .demands _ _ hrestores) ?_
  intro l hkl v w hvw
  exact demands_of_serves (henters.mono (le_trans (le_trans hij hjk) hkl)) (hserves.mono hkl) hvw

omit henters in
/-- Where recursive checks correspond wherever a node uses them, they do so for the
alternatives. -/
theorem serves_of_admits (hadmits : K.Admits definitions R₁ R₂ i)
    (hmatches : K.Matches host₁ host₂ definitions i a b) :
    K.Serves host₁ host₂ definitions R₁ R₂ i a b where
  keywords := hmatches
  either := fun _ hij _ _ hvw _ => either hadmits.restores
    (fun k hjk => hadmits.here k (le_trans hij hjk) _ _ (K.value_mono hjk hvw))
    (fun k hjk => hadmits.aside k (le_trans hij hjk) _ _ (K.value_mono hjk hvw))
    hmatches.either hvw

omit henters in
/-- **Checks of corresponding values against corresponding nodes correspond.** -/
theorem node (hadmits : K.Admits definitions R₁ R₂ i) {d e : Definition}
    (hresolve : K.Runs i (Run.ofForcing (resolve host₁ K.left.options.policy d))
      (Run.ofForcing (resolve host₂ K.right.options.policy e)) fun j =>
        AlikeResult (K.Matches host₁ host₂ definitions j))
    (hrefused : (K.left.atRoot && !K.left.options.policy.allowRootDefault) =
      (K.right.atRoot && !K.right.options.policy.allowRootDefault)) (hvw : K.value i v w) :
    K.Follows i (Check.node host₁ R₁ v d) (Check.node host₂ R₂ w e) K.value := by
  refine node_of_serves hadmits.enters (fun j hij w₁ w₂ hworld => ?_) (fun _ => hrefused) hvw
  obtain ⟨k, hjk, hworld', hresult⟩ := hresolve j hij w₁ w₂ hworld
  exact ⟨k, hjk, hworld', .imp (fun _ _ hmatches =>
    serves_of_admits (hadmits.mono (le_trans hij hjk)) hmatches) hresult⟩

end Nodes

end Follows

end Scope

end Conform
