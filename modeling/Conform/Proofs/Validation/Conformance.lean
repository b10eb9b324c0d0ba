import Conform.Proofs.Definition.Conforms
import Conform.Proofs.Validation.Decision
import Conform.Proofs.Validation.Rehearsal
import Conform.Proofs.Value.Planted

/-!
# Checks decide conformance

A definition that is read from a document, with no default and no moments in it, changes
nothing.  On a value that does not contain itself its check complains exactly if the value
does not conform: every keyword decides what it says, if the checks of the parts decide
what the parts say, and alternatives are settled by what they find on the value itself.

## Main definitions

* `Context.Clear`: a check that stands at a value that does not contain itself.
* `Check.Recurse.Decides`, `Check.Ready`: what is asked of the checks of parts, and of a node.

## Main results

* `Check.decides_alternatives`: alternatives decide that one of them holds of the value.
* `Check.decides_node`: a node decides all that its keywords say.
* `Check.decides_checkWithin`: the check decides conformance, at any place in the value.
* `check_conforms`: so does the check of the whole.
-/

namespace Conform

variable {σ : Type}

/-! ## Where a check stands -/

/-- A check stands at an acyclic value that is no copy, and none of the containers that it
has come through is in the value. -/
structure Context.Clear (context : Context) (heap : Heap) (value : Value) : Prop where
  holds : heap.Holds value
  acyclic : heap.Acyclic value
  origins : context.origins = []
  ancestors : ∀ ref ∈ context.ancestors, ref < heap.size
  apart : ∀ ref, heap.Reachable value ref → ref ∉ context.ancestors

namespace Context.Clear

variable {context : Context} {heap : Heap} {value : Value}

/-- Whole checks begin so, if the value does not contain itself. -/
theorem start (options : Options) (hholds : heap.Holds value) (hacyclic : heap.Acyclic value) :
    (Context.start options).Clear heap value :=
  ⟨hholds, hacyclic, rfl, nofun, fun _ _ => List.not_mem_nil⟩

theorem originOf_eq (h : context.Clear heap value) (ref : Ref) : context.originOf ref = ref := by
  refine context.originOf_of_not_mem fun origin horigin => ?_
  rw [h.origins] at horigin
  cases horigin

theorem visited (h : context.Clear heap value) : context.visited.Clear heap value :=
  ⟨h.holds, h.acyclic, h.origins, h.ancestors, h.apart⟩

/-- Without copies a trial stands where the check stands. -/
theorem fork (h : context.Clear heap value) : (context.fork []).Clear heap value where
  holds := h.holds
  acyclic := h.acyclic
  origins := by rw [origins_fork, h.origins]; rfl
  ancestors := h.ancestors
  apart := h.apart

theorem not_mem (h : context.Clear heap value) {ref : Ref} (href : value.ref? = some ref) :
    context.originOf ref ∉ context.ancestors := by
  rw [h.originOf_eq]
  exact h.apart ref (.root href)

/-- One step on stands the check of a part, or of null where a part is missing. -/
theorem entered (h : context.Clear heap value) {ref : Ref} (href : value.ref? = some ref)
    {part : Value} (hpart : part ∈ heap.children ref ∨ part = .null) (accessor : Accessor) :
    (context.entered ref accessor).Clear heap part := by
  have hroot : heap.Reachable value ref := .root href
  have hsub : ∀ other, heap.Reachable part other → heap.Reachable value other := by
    intro other hother
    rcases hpart with hpart | rfl
    · exact hroot.of_child hpart hother
    · exact absurd hother (Heap.not_reachable_of_ref?_none rfl other)
  refine ⟨fun other hother => h.holds other (hsub other hother),
    fun other hother => h.acyclic other (hsub other hother), h.origins, ?_, ?_⟩
  · intro ancestor hancestor
    rcases List.mem_cons.1 hancestor with rfl | hbefore
    · rw [h.originOf_eq]
      exact h.holds ref hroot
    · exact h.ancestors ancestor hbefore
  · -- What the part leads to is not the container itself, because that is acyclic.
    intro other hother hancestor
    rcases List.mem_cons.1 hancestor with heq | hbefore
    · rw [h.originOf_eq] at heq
      subst heq
      rcases hpart with hpart | rfl
      · exact h.acyclic other hroot part hpart hother
      · exact Heap.not_reachable_of_ref?_none rfl other hother
    · exact h.apart other (hsub other hother) hbefore

end Context.Clear

namespace Check

variable {base : Heap} {context : Context} {value : Value} {resolved : Resolved}

/-! ## Keywords that look at the value alone -/

theorem hasType_iff {kind : TypeName} : hasType kind value = true ↔ value.HasType kind := by
  constructor
  · intro h
    unfold hasType at h
    split at h
    any_goals constructor
    cases h
  · rintro ⟨⟩ <;> rfl

theorem decides_type (hkind : resolved.node.kind ≠ some .dateTime) :
    Decides base context (type resolved value : Check σ Value) value
      (∀ kind, resolved.node.kind = some kind → value.HasType kind) := by
  unfold type
  split
  · next hnone => exact (Decides.pure value).congr (by simp [hnone])
  · next hsome => exact absurd hsome hkind
  · next kind _ hsome =>
    exact ((Decides.demand _ _).returning value).congr (by simp [hsome, hasType_iff])

/-- What a value is equal to hangs on its own containers, not on those that trials have
added. -/
theorem equalsJson_of_untouched {heap : Heap} (hvalue : base.Holds value)
    (h : (Invariant.untouched base).holds .still heap) (json : Json) :
    value.equalsJson heap json = value.equalsJson base json :=
  Heap.Retains.equalsJson_eq (fun ref hreach =>
    Invariant.fetch_eq_of_untouched h (hvalue ref hreach)) json

theorem decides_oneOf (hvalue : base.Holds value) :
    Decides base context (oneOf resolved value : Check σ Value) value
      (∀ documents, resolved.node.allowed = some documents →
        ∃ json ∈ documents, value.equalsJson base json = true) := by
  unfold oneOf
  split
  · next hnone => exact (Decides.pure value).congr (by simp [hnone])
  · next documents hsome =>
    have hread : ∀ heap, (Invariant.untouched base).holds .still heap →
        (documents.any fun json => value.equalsJson heap json) =
          documents.any fun json => value.equalsJson base json := by
      intro heap hheap
      simp only [equalsJson_of_untouched hvalue hheap]
    refine ((Decides.readHeap hread).after ((Decides.demand _ _).returning value)).congr ?_
    simp [hsome]

theorem decides_bounds :
    Decides base context (bounds resolved value : Check σ Value) value
      (∀ bounds, resolved.node.bounds = some bounds →
        (∀ x, value = .number x → ∀ comparator bound, bounds.get? comparator = some bound →
          comparator.holds x bound = true) ∧
        ((∀ x, value ≠ .number x) → resolved.node.kind ≠ none)) := by
  unfold bounds
  split
  · next hnone => exact (Decides.pure _).congr (by simp [hnone])
  · next bounds x hsome =>
    refine ((Decides.forM fun bound _ => Decides.demand _ _).returning _).congr ?_
    simp [hsome, Bounds.mem_toList_iff]
  · next value _ _ bounds hsome hnumber =>
    have hother : ∀ x, value ≠ .number x := hnumber
    refine ((Decides.demand _ _).returning _).congr ?_
    simp [hsome, hother, Option.isSome_iff_ne_none]

/-! ## Keywords that look at the fields of an object -/

/-- Of a value that is no object the type complains, if there is one. -/
theorem decides_withObject {m : Ref → Check σ Unit} {P : Ref → Prop}
    (hm : ∀ ref, value = .object ref → Decides base context (m ref) () (P ref)) :
    Decides base context (withObject resolved value m) value
      ((∀ ref, value = .object ref → P ref) ∧
        ((∀ ref, value ≠ .object ref) → resolved.node.kind ≠ none)) := by
  cases value with
  | object ref => exact ((hm ref rfl).returning _).congr (by simp)
  | _ =>
    refine ((Decides.demand _ _).returning _).congr ?_
    simp [Option.isSome_iff_ne_none]

theorem decides_hasField {ref : Ref} (hlt : ref < base.size) (name : String) :
    Decides base context (hasField ref name : Check σ Bool)
      (!(base.fieldOf ref name).isAbsent) True :=
  Decides.readHeap fun heap hheap => by
    change (!(heap.fieldOf ref name).isAbsent) = !(base.fieldOf ref name).isAbsent
    unfold Heap.fieldOf
    rw [Invariant.fields_eq_of_untouched hheap hlt]

/-- A condition on whether the fields of the given names are there. -/
theorem decides_presence (hvalue : base.Holds value) (names : List String)
    (condition : Bool → Bool) (complaint : Complaint) :
    Decides base context
      (withObject resolved value fun ref => names.forM fun name => do
        let present ← hasField ref name
        demandAt (.key name) (condition present) complaint : Check σ Value) value
      ((∀ ref, value = .object ref →
        ∀ name ∈ names, condition (!(base.fieldOf ref name).isAbsent) = true) ∧
        ((∀ ref, value ≠ .object ref) → resolved.node.kind ≠ none)) := by
  refine decides_withObject fun ref hobject => .forM fun name _ => ?_
  have hlt : ref < base.size := hvalue ref (.root (congrArg Value.ref? hobject))
  exact (decides_hasField hlt name).after (.demandAt _ _ _)

theorem decides_require (hvalue : base.Holds value) :
    Decides base context (require resolved value : Check σ Value) value
      (∀ names, resolved.node.require = some names →
        (∀ ref, value = .object ref → ∀ name ∈ names, base.fieldOf ref name ≠ .null) ∧
          ((∀ ref, value ≠ .object ref) → resolved.node.kind ≠ none)) := by
  unfold require
  split
  · next hnone => exact (Decides.pure value).congr (by simp [hnone])
  · next names hsome =>
    refine (decides_presence hvalue names id .missing).congr ?_
    simp [hsome, ← Value.isAbsent_iff]

theorem decides_restrict (hvalue : base.Holds value) :
    Decides base context (restrict resolved value : Check σ Value) value
      (∀ names, resolved.node.restrict = some names →
        (∀ ref, value = .object ref → ∀ name ∈ names, base.fieldOf ref name = .null) ∧
          ((∀ ref, value ≠ .object ref) → resolved.node.kind ≠ none)) := by
  unfold restrict
  split
  · next hnone => exact (Decides.pure value).congr (by simp [hnone])
  · next names hsome =>
    refine (decides_presence hvalue names not .restricted).congr ?_
    simp [hsome, ← Value.isAbsent_iff]

/-! ## Keywords that go into the parts -/

/-- The checks of parts decide what is said of the parts, if these are ready for it. -/
def Recurse.Decides (base : Heap) (recurse : Recurse σ) (ready : Definition → Prop)
    (means : Policy → Definition → Value → Prop) : Prop :=
  ∀ (context : Context) (value : Value) (definition : Definition),
    context.Clear base value → ready definition →
    Check.Decides base context (recurse value definition) value
      (means context.options.policy definition value)

/-- A node that changes nothing, the parts of which are ready, and the fields of which are
the same each time that they are needed. -/
structure Ready (host : Host σ) (ready : Definition → Prop) (node : Node Definition)
    (fields : List (String × Definition)) : Prop where
  fallback : node.fallback = none
  kind : node.kind ≠ some .dateTime
  custom : node.custom = none
  produced : ∀ schema, node.schema = some schema → ∀ env declared env',
    schema.resolve host env = .ok declared env' → declared = fields
  field : ∀ field ∈ fields, ready field.2
  item : ∀ item, node.items = some item → ready item
  either : ∀ definitions, node.either = some definitions → ∀ d ∈ definitions,
    ready d ∧ d.Throughout host (Definition.Repeatable host)

section Parts

variable {host : Host σ} {recurse : Recurse σ} {ready : Definition → Prop}
  {means : Policy → Definition → Value → Prop} {ref : Ref} {part : Value} {definition : Definition}

/-- One step on, what is said of a part holds or not as it does anywhere. -/
theorem decides_part (hrecurse : Recurse.Decides base recurse ready means)
    (hclear : context.Clear base value) (href : value.ref? = some ref)
    (hpart : part ∈ base.children ref ∨ part = .null) (hdefinition : ready definition)
    (accessor : Accessor) :
    Decides base { context with ancestors := context.originOf ref :: context.ancestors }
      (under accessor (recurse part definition)) part
      (means context.options.policy definition part) :=
  .under (hrecurse _ part definition (hclear.entered href hpart accessor) hdefinition)

theorem decides_field (hrecurse : Recurse.Decides base recurse ready means)
    (hclear : context.Clear base value) (href : value.ref? = some ref)
    (hdefinition : ready definition) (name : String) :
    Decides base { context with ancestors := context.originOf ref :: context.ancestors }
      (field recurse ref name definition) ()
      (means context.options.policy definition (base.fieldOf ref name)) := by
  have hread : ∀ heap, (Invariant.untouched base).holds .still heap →
      (heap.fields ref).get? name = (base.fields ref).get? name := by
    intro heap hheap
    rw [Invariant.fields_eq_of_untouched hheap (hclear.holds ref (.root href))]
  have hpart : base.fieldOf ref name ∈ base.children ref ∨ base.fieldOf ref name = .null := by
    unfold Heap.fieldOf
    cases hget : (base.fields ref).get? name with
    | none => exact .inr rfl
    | some current => exact .inl (Heap.mem_children_of_get? hget)
  refine (Decides.readHeap hread).after
    ((decides_part hrecurse hclear href hpart hdefinition (.key name)).before ?_)
  -- A field that was there is put back, and a missing one stays missing.
  unfold Heap.fieldOf
  cases hget : (base.fields ref).get? name with
  | none => exact .pure ()
  | some current =>
    exact .changeHeap fun heap hheap => heap.insertField_self ((hread heap hheap).trans hget)

theorem decides_undeclared (hlt : ref < base.size) (declared : List String) :
    Decides base context (undeclared ref declared : Check σ Unit) ()
      (∀ name ∈ (base.fields ref).keys, name ∈ declared) := by
  have hread : ∀ heap, (Invariant.untouched base).holds .still heap →
      (heap.fields ref).keys = (base.fields ref).keys := by
    intro heap hheap
    rw [Invariant.fields_eq_of_untouched hheap hlt]
  refine ((Decides.readHeap hread).after (.forM fun name _ => .demandAt _ _ _)).congr ?_
  simp

theorem decides_schema (hrecurse : Recurse.Decides base recurse ready means)
    (hclear : context.Clear base value) {fields : List (String × Definition)}
    (hnode : Ready host ready resolved.node fields) :
    Decides base context (schema host recurse resolved value) value
      (resolved.node.schema ≠ none →
        (∀ ref, value = .object ref →
          (∀ field ∈ fields, means context.options.policy field.2 (base.fieldOf ref field.1)) ∧
          (resolved.strict = true →
            ∀ name ∈ (base.fields ref).keys, name ∈ fields.map Prod.fst)) ∧
          ((∀ ref, value ≠ .object ref) → resolved.node.kind ≠ none)) := by
  unfold schema
  split
  · next hnone => exact (Decides.pure value).congr (by simp [hnone])
  · next schema hsome =>
    refine (decides_withObject (P := fun ref =>
      (∀ field ∈ fields, means context.options.policy field.2 (base.fieldOf ref field.1)) ∧
        (resolved.strict = true → ∀ name ∈ (base.fields ref).keys, name ∈ fields.map Prod.fst))
      fun ref hobject => ?_).congr (by simp [hsome])
    have href : value.ref? = some ref := congrArg Value.ref? hobject
    refine (Decides.ofForcing (hnode.produced _ hsome)).after (.inside (hclear.not_mem href) (.bind
      (.forM fun field hfield =>
        decides_field hrecurse hclear href (hnode.field field hfield) field.1) ?_))
    split
    · next hstrict =>
      refine (decides_undeclared (hclear.holds ref (.root href)) _).congr ?_
      simp [hstrict]
    · next hlax => exact (Decides.pure ()).congr (by simp [hlax])

theorem decides_item (hrecurse : Recurse.Decides base recurse ready means)
    (hclear : context.Clear base value) (href : value.ref? = some ref)
    (hdefinition : ready definition) {i : Nat} (hpart : (base.items ref)[i]? = some part) :
    Decides base { context with ancestors := context.originOf ref :: context.ancestors }
      (item recurse ref definition part i) () (means context.options.policy definition part) := by
  have hchild : part ∈ base.children ref :=
    Heap.mem_children_of_mem_items (List.mem_of_getElem? hpart)
  refine (decides_part hrecurse hclear href (.inl hchild) hdefinition (.index i)).before
    (.changeHeap fun heap hheap => heap.setItem_self ?_)
  rwa [Invariant.items_eq_of_untouched hheap (hclear.holds ref (.root href))]

theorem decides_entry (hrecurse : Recurse.Decides base recurse ready means)
    (hclear : context.Clear base value) (href : value.ref? = some ref)
    (hdefinition : ready definition) {name : String}
    (hpart : (base.fields ref).get? name = some part) :
    Decides base { context with ancestors := context.originOf ref :: context.ancestors }
      (entry recurse ref definition name part) ()
      (means context.options.policy definition part) := by
  have hchild : part ∈ base.children ref := Heap.mem_children_of_get? hpart
  refine (decides_part hrecurse hclear href (.inl hchild) hdefinition (.key name)).before
    (.changeHeap fun heap hheap => heap.insertField_self ?_)
  rwa [Invariant.fields_eq_of_untouched hheap (hclear.holds ref (.root href))]

theorem decides_items (hrecurse : Recurse.Decides base recurse ready means)
    (hclear : context.Clear base value)
    (hready : ∀ item, resolved.node.items = some item → ready item) :
    Decides base context (items recurse resolved value) value
      (∀ item, resolved.node.items = some item →
        (∃ ref, value = .array ref ∧
          ∀ part ∈ base.items ref, means context.options.policy item part) ∨
        ∃ ref, value = .object ref ∧
          ∀ entry ∈ (base.fields ref).entries, means context.options.policy item entry.2) := by
  cases hitems : resolved.node.items with
  | none =>
    have hskip : (items recurse resolved value : Check σ Value) = pure value := by
      simp only [items, hitems]
    rw [hskip]
    exact (Decides.pure value).congr (by simp)
  | some definition =>
    cases value with
    | array ref =>
      have hread : ∀ heap, (Invariant.untouched base).holds .still heap →
          heap.items ref = base.items ref := fun heap hheap =>
        Invariant.items_eq_of_untouched hheap (hclear.holds ref (.root rfl))
      simp only [items, hitems]
      refine ((Decides.inside (hclear.not_mem rfl) ((Decides.readHeap hread).after
        (.forM fun place hplace => decides_item hrecurse hclear rfl (hready definition hitems)
          (List.mk_mem_zipIdx_iff_getElem?.1 hplace)))).returning _).congr ?_
      -- The loop runs over the items with their places, and only the items matter.
      have hplaces : (base.items ref).zipIdx.map Prod.fst = base.items ref :=
        List.zipIdx_map_fst 0 _
      refine List.forall_mem_map.symm.trans ?_
      simp [hplaces]
    | object ref =>
      have hread : ∀ heap, (Invariant.untouched base).holds .still heap →
          (heap.fields ref).entries = (base.fields ref).entries := by
        intro heap hheap
        rw [Invariant.fields_eq_of_untouched hheap (hclear.holds ref (.root rfl))]
      simp only [items, hitems]
      refine ((Decides.inside (hclear.not_mem rfl) ((Decides.readHeap hread).after
        (.forM fun place hplace => decides_entry hrecurse hclear rfl (hready definition hitems)
          (OrderedMap.get?_of_mem hplace)))).returning _).congr ?_
      simp
    | _ =>
      simp only [items, hitems]
      exact ((Decides.report _ _).returning _).congr (by simp)

end Parts

/-! ## Alternatives -/

section Alternatives

variable {host : Host σ} {depth : Nat} {ready : Definition → Prop}
  {means : Policy → Definition → Value → Prop}

theorem sound_of_clear (hclear : context.Clear base value) {V : List Violation} {world : World σ}
    (hworld : (Invariant.untouched base).holds .still world.heap) :
    Session.Sound ⟨context.holding V, world⟩ value where
  holds := fun ref hreach => Nat.lt_of_lt_of_le
    (hclear.holds ref (Invariant.reachable_of_untouched hclear.holds hworld hreach)) hworld.1
  within :=
    { ancestors := fun ref href => Nat.lt_of_lt_of_le (hclear.ancestors ref href) hworld.1
      origins := fun origin horigin => by
        rw [Context.origins_holding, hclear.origins] at horigin
        cases horigin }

/-- What an alternative finds on the value itself tells whether it holds of the value. -/
theorem findings_iff (hrecurse : Recurse.Decides base (checkWithin host depth) ready means)
    (hclear : context.Clear base value) {alternative : Definition}
    (halternative : ready alternative) {V violations : List Violation} {world : World σ}
    (hworld : (Invariant.untouched base).holds .still world.heap)
    (hfindings : findings (checkWithin host depth) value ⟨context.holding V, world⟩ alternative =
      .ok violations) :
    violations = [] ↔ means context.options.policy alternative value := by
  have htrial := hrecurse (context.fork []) value alternative hclear.fork halternative [] world
    hworld
  rw [findings, result_trial, Context.fork_holding] at hfindings
  rw [Context.holding_fork] at htrial
  cases hrun : checkWithin host depth value alternative ⟨context.fork [], world⟩ with
  | error fault last =>
    rw [hrun] at hfindings
    cases hfindings
  | ok result last =>
    obtain ⟨-, -, added, hlast, hmeans⟩ := htrial result last hrun
    rw [hrun] at hfindings
    obtain rfl : last.context.violations = violations := Except.ok.inj hfindings
    rw [hlast]
    exact hmeans

/-- **Alternatives decide that one of them holds of the value.** -/
theorem decides_alternatives (hrecurse : Recurse.Decides base (checkWithin host depth) ready means)
    (hclear : context.Clear base value) {definitions : List Definition}
    (hready : ∀ d ∈ definitions, ready d ∧ d.Throughout host (Definition.Repeatable host)) :
    Decides base context (alternatives (checkWithin host depth) value [] definitions) value
      (∃ d ∈ definitions, means context.options.policy d value) := by
  intro V world hworld result last hok
  have hsettles := settles_alternatives (sound_of_clear (V := V) hclear hworld) depth
    fun d hd => (hready d hd).2
  rw [hok] at hsettles
  cases hsettles with
  | @clean before rest inner alternative middle after result _ hfindings hcontext hmiddle
      hrerun hafter =>
    -- The second run is on the value itself, after the trials have added their copies.
    obtain ⟨context', world'⟩ := middle
    obtain rfl : context' = context.holding V := hcontext
    have hmem : alternative ∈ before ++ alternative :: rest :=
      List.mem_append_right _ (List.mem_cons_self ..)
    obtain ⟨halternative, -⟩ := hready _ hmem
    have hmeans := (findings_iff hrecurse hclear halternative hworld hfindings).1 rfl
    obtain ⟨hresult, hlast, -⟩ := hrecurse context value alternative hclear halternative V
      world' (Invariant.untouched_trans hworld hmiddle) result _ hrerun
    exact ⟨hresult, hlast, [], by rw [hafter, List.append_nil],
      iff_of_true rfl ⟨alternative, hmem, hmeans⟩⟩
  | @failed _ inner world' hfails _ hafter =>
    have hnone : ∀ d ∈ definitions, ¬ means context.options.policy d value := by
      intro d hd hmeans
      obtain ⟨violations, hfindings, hviolations⟩ := hfails.exists_of_mem hd
      exact hviolations ((findings_iff hrecurse hclear (hready d hd).1 hworld hfindings).2 hmeans)
    refine ⟨rfl, Invariant.untouched_trans hworld hafter, _, rfl,
      iff_of_false (List.cons_ne_nil _ _) ?_⟩
    rintro ⟨d, hd, hmeans⟩
    exact hnone d hd hmeans

theorem decides_either (hrecurse : Recurse.Decides base (checkWithin host depth) ready means)
    (hclear : context.Clear base value)
    (hready : ∀ definitions, resolved.node.either = some definitions → ∀ d ∈ definitions,
      ready d ∧ d.Throughout host (Definition.Repeatable host)) :
    Decides base context (either (checkWithin host depth) resolved value) value
      (∀ alternatives, resolved.node.either = some alternatives →
        ∃ alternative ∈ alternatives, means context.options.policy alternative value) := by
  unfold either
  split
  · next hnone => exact (Decides.pure value).congr (by simp [hnone])
  · next definitions hsome =>
    exact (decides_alternatives hrecurse hclear (hready definitions hsome)).congr (by simp [hsome])

end Alternatives

/-! ## Nodes -/

section Nodes

variable {host : Host σ} {depth : Nat} {ready : Definition → Prop}
  {means : Policy → Definition → Value → Prop} {keywords : Node Definition}
  {fields : List (String × Definition)}

theorem decides_custom {resolved : Resolved} (hcustom : resolved.node.custom = none) :
    Decides base context (custom host resolved value) value True := by
  simp only [custom, hcustom]
  exact .pure value

/-- **The keywords of a node in turn** decide all that they say. -/
theorem decides_keywords (hrecurse : Recurse.Decides base (checkWithin host depth) ready means)
    (hclear : context.Clear base value) (hnode : Ready host ready keywords fields) :
    Decides base context
      ((Check.keywords host (checkWithin host depth)).foldlM
        (fun value keyword => keyword (context.options.policy.complete keywords) value) value) value
      (((keywords.spelled fields).map (means context.options.policy)).Demands
        context.options.policy base value) := by
  have hresolved : Ready host ready (context.options.policy.complete keywords).node fields := hnode
  refine Decides.congr (Decides.foldlM
    (.cons (decides_type hnode.kind)
    (.cons (decides_oneOf hclear.holds)
    (.cons decides_bounds
    (.cons (decides_either hrecurse hclear hnode.either)
    (.cons (decides_schema hrecurse hclear hresolved)
    (.cons (decides_require hclear.holds)
    (.cons (decides_restrict hclear.holds)
    (.cons (decides_items hrecurse hclear hnode.item)
    (.cons (decides_custom hnode.custom) .nil)))))))))) ?_
  simp only [List.forall_mem_cons]
  -- The demands are about the readings of sub-definitions, the keywords about these themselves.
  have hschema := @Node.forall_schema_map _ _ (keywords.spelled fields)
    (means context.options.policy)
  constructor
  · rintro ⟨kind, allowed, bounds, either, schema, require, restrict, items, -⟩
    refine ⟨kind, allowed, bounds, Node.exists_either_map.2 either, hschema.2 ?_, require,
      restrict, Node.forall_items_map.2 items⟩
    intro declared hdeclared
    obtain ⟨written, hwritten, heq⟩ := Option.map_eq_some_iff.1 hdeclared
    obtain rfl := Fields.declared.inj heq
    have schema := schema (hwritten ▸ Option.some_ne_none _)
    simp only [List.forall_mem_map, List.map_map]
    exact schema
  · rintro ⟨kind, allowed, bounds, either, schema, require, restrict, items⟩
    refine ⟨kind, allowed, bounds, Node.exists_either_map.1 either, fun hsome => ?_, require,
      restrict, Node.forall_items_map.1 items, trivial, nofun⟩
    obtain ⟨written, hwritten⟩ := Option.ne_none_iff_exists'.1 hsome
    have schema := hschema.1 schema fields (Option.map_eq_some_iff.2 ⟨written, hwritten, rfl⟩)
    simp only [List.forall_mem_map, List.map_map] at schema
    exact schema

theorem decides_demands (hrecurse : Recurse.Decides base (checkWithin host depth) ready means)
    (hclear : context.Clear base value) (hnode : Ready host ready keywords fields) :
    Decides base context
      (demands host (checkWithin host depth) (context.options.policy.complete keywords) value) value
      (((keywords.spelled fields).map (means context.options.policy)).Conforms
        context.options.policy base value) := by
  unfold demands
  split
  · next habsent =>
    have hnull : value = .null := (Value.isAbsent_iff value).1 habsent
    refine ((Decides.demand _ _).returning value).congr ?_
    simp [Node.Conforms, hnull, Policy.complete, Node.map, Node.spelled]
  · next hthere =>
    have hvalue : value ≠ .null := fun hnull => hthere ((Value.isAbsent_iff value).2 hnull)
    refine (decides_keywords hrecurse hclear hnode).congr ?_
    simp [Node.Conforms, hvalue]

theorem supply_of_none (hnone : resolved.node.fallback = none) :
    supply host resolved value = pure value := by
  simp only [supply, hnone]

/-- **A node decides what it says**, if the checks of its parts do, and it is the same each
time that thunks are forced down to it. -/
theorem decides_node (hrecurse : Recurse.Decides base (checkWithin host depth) ready means)
    (hclear : context.Clear base value) {definition : Definition}
    (hunfold : ∀ env node env', definition.unfold host maxThunkChain env = .ok node env' →
      node = keywords)
    (hnode : Ready host ready keywords fields) :
    Decides base context (node host (checkWithin host depth) value definition) value
      (((keywords.spelled fields).map (means context.options.policy)).Conforms
        context.options.policy base value) := by
  have hpolicy : Decides base context
      (readContext fun context => context.options.policy : Check σ Policy)
      context.options.policy True :=
    .readContext (f := fun context => context.options.policy) fun _ => rfl
  refine hpolicy.after ((Decides.ofForcing (a := context.options.policy.complete keywords)
    fun env resolved env' hresolve => ?_).after ?_)
  · obtain ⟨node, hok, rfl⟩ := Definition.unfold_of_resolve hresolve
    rw [hunfold env node env' hok]
  · have hnone : (context.options.policy.complete keywords).node.fallback = none := hnode.fallback
    rw [supply_of_none hnone]
    exact (Decides.pure value).after (decides_demands hrecurse hclear hnode)

end Nodes

/-! ## The whole check -/

section Whole

variable {host : Host σ} {keywords : Node Definition}

/-- What is written in a plain node is ready. -/
theorem ready_of_plain (h : Definition.Plain (.node keywords)) :
    Ready host Definition.Plain keywords keywords.declared := by
  obtain ⟨hfallback, hkind⟩ := h.inert _ .refl
  refine ⟨hfallback, hkind, (Definition.written_node_iff.1 h.written).custom, ?_, ?_,
    fun item hitems => h.item hitems, fun definitions heither d hd => ?_⟩
  · intro schema hschema env produced env' hresolve
    obtain ⟨fields, rfl⟩ := h.declared hschema
    cases hresolve
    rw [Node.declared, hschema]
  · intro field hfield
    unfold Node.declared at hfield
    split at hfield
    · next hschema => exact h.field hschema hfield
    · cases hfield
  · have hplain := h.alternative heither hd
    exact ⟨hplain, hplain.written.throughout host⟩

/-- **The check decides conformance**, at any place in the value. -/
theorem decides_checkWithin (depth : Nat) :
    Recurse.Decides base (checkWithin host depth) Definition.Plain
      fun policy definition => definition.Conforms policy base := by
  induction depth with
  | zero => exact fun context value definition hclear hdefinition => .throw
  | succ depth ih =>
    intro context value definition hclear hdefinition
    have hresolved : ∀ keywords : Node Definition, Definition.Plain (.node keywords) →
        (∀ env, definition.unfold host maxThunkChain env = .ok keywords env) →
        Decides base context.visited (node host (checkWithin host depth) value definition) value
          (Definition.Conforms context.options.policy base (.node keywords) value) := by
      intro keywords hnode hunfold
      have hready : Ready host Definition.Plain keywords keywords.declared := ready_of_plain hnode
      have hsame : ∀ env node env', definition.unfold host maxThunkChain env = .ok node env' →
          node = keywords := fun env node env' hok => by rw [hunfold env] at hok; cases hok; rfl
      have hdecides := decides_node ih hclear.visited hsame hready
      rw [Node.spelled_declared (Definition.written_node_iff.1 hnode.written).deferred] at hdecides
      rw [Definition.conforms_node]
      exact hdecides
    refine .visiting ?_
    change Decides base context.visited _ value
      (definition.Conforms context.options.policy base value)
    cases definition with
    | deferred thunk => cases hdefinition.written
    | shorthand type =>
      rw [Definition.conforms_shorthand]
      exact hresolved _ hdefinition.ofType fun _ => rfl
    | node keywords => exact hresolved keywords hdefinition fun _ => rfl

end Whole

end Check

/-- **A check of the whole decides conformance**, for definitions that are read from
documents and have no defaults and no moments in them.  If it comes to no fault, it
complains exactly if the value does not conform; and it gives the value back, and leaves
every container as it was. -/
theorem check_conforms (host : Host σ) (options : Options) {json : Json} {definition : Definition}
    (hread : Definition.ofJson json = .ok definition)
    (hinert : ∀ part, definition.Part part → part.Inert) {value : Value} {world after : World σ}
    (hholds : world.heap.Holds value) (hacyclic : world.heap.Acyclic value) {outcome : Outcome}
    (hcheck : check host options value definition world = (.ok outcome, after)) :
    (outcome.violations = [] ↔ definition.Conforms options.policy world.heap value) ∧
      outcome.value = value ∧
      ∀ ref, ref < world.heap.size → after.heap.fetch ref = world.heap.fetch ref := by
  have hclear : (Context.start options).Clear world.heap value :=
    ⟨hholds, hacyclic, rfl, nofun, fun _ _ => List.not_mem_nil⟩
  have hplain : definition.Plain := ⟨Definition.written_ofJson json hread, hinert⟩
  unfold check at hcheck
  cases hrun : checkWithin host (nestingBound world.heap definition) value definition
      ⟨.start options, world⟩ with
  | error fault session =>
    rw [hrun] at hcheck
    cases hcheck
  | ok result session =>
    obtain ⟨hresult, hheap, added, hcontext, hconforms⟩ :=
      Check.decides_checkWithin _ _ value definition hclear hplain [] world
        Invariant.holds_untouched_self result session hrun
    rw [hrun] at hcheck
    cases hcheck
    refine ⟨?_, hresult, fun ref hlt => Invariant.fetch_eq_of_untouched hheap hlt⟩
    change session.context.violations = [] ↔ _
    rw [hcontext]
    exact hconforms

/-- An array that holds one array of strings twice, and a string beside them: every item
is a string or an array of strings, and so the array conforms. -/
theorem check_conforms_shared :
    let strings : Json := .object [("items", .string "string")]
    let json : Json := .object [("items", .object [("either", .array [.string "string", strings])])]
    let world : World Unit :=
      ⟨{ containers := #[.array [.string "a"], .array [.array 0, .array 0, .string "b"]] }, ()⟩
    ∃ definition outcome after, Definition.ofJson json = .ok definition ∧
      check default {} (.array 1) definition world = (.ok outcome, after) ∧
      definition.Conforms {} world.heap (.array 1) ∧
      ∀ ref, ref < 2 → after.heap.fetch ref = world.heap.fetch ref := by
  intro strings json world
  let strings : Definition := .node { items := some (.shorthand .string) }
  let item : Definition := .node { either := some [.shorthand .string, strings] }
  let definition : Definition := .node { items := some item }
  have hread : Definition.ofJson json = .ok definition := rfl
  have hstring : ∀ part, (Definition.shorthand .string).Part part → part.Inert := by
    rintro _ ⟨⟩
    exact nofun
  have hstrings : ∀ part, strings.Part part → part.Inert := by
    refine Definition.forall_part_node.2 ⟨⟨rfl, nofun⟩, nofun, ?_, nofun⟩
    rintro _ ⟨⟩
    exact hstring
  have hitem : ∀ part, item.Part part → part.Inert := by
    refine Definition.forall_part_node.2 ⟨⟨rfl, nofun⟩, nofun, nofun, ?_⟩
    rintro _ ⟨⟩ alternative halternative
    rcases List.mem_cons.1 halternative with rfl | halternative
    · exact hstring
    · obtain rfl := List.mem_singleton.1 halternative
      exact hstrings
  have hinert : ∀ part, definition.Part part → part.Inert := by
    refine Definition.forall_part_node.2 ⟨⟨rfl, nofun⟩, nofun, ?_, nofun⟩
    rintro _ ⟨⟩
    exact hitem
  have hdown : ∀ parent child, world.heap.Child parent child → child < parent := by
    rintro parent child ⟨part, hpart, href⟩
    match parent with
    | 0 =>
      obtain rfl : part = .string "a" := List.mem_singleton.1 hpart
      cases href
    | 1 =>
      have hpart : part ∈ [Value.array 0, .array 0, .string "b"] := hpart
      simp only [List.mem_cons, List.not_mem_nil, or_false] at hpart
      rcases hpart with rfl | rfl | rfl
      · cases href; exact Nat.zero_lt_one
      · cases href; exact Nat.zero_lt_one
      · cases href
    | other + 2 => cases hpart
  have hholds : world.heap.Holds (.array 1) := fun ref hreach =>
    Nat.lt_succ_of_le (hreach.le hdown rfl)
  have hvalid : ((check default {} (.array 1) definition world).1.map Outcome.isValid).toOption =
      some true := by
    decide +kernel
  cases hrun : check default {} (.array 1) definition world with
  | mk result after =>
    rw [hrun] at hvalid
    cases result with
    | error fault => cases hvalid
    | ok outcome =>
      obtain ⟨hconforms, -, hfetch⟩ := check_conforms default {} hread hinert hholds
        (Heap.acyclic_of_child_lt hdown _) hrun
      have hnone : outcome.violations = [] :=
        List.isEmpty_iff.1 (Option.some.inj hvalid)
      exact ⟨definition, outcome, after, hread, hrun, hconforms.1 hnone, hfetch⟩

end Conform
