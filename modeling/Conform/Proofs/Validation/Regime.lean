import Conform.Proofs.Validation.Postcondition

/-!
# What a check makes of values

Keywords pass on the value that they are given, put a moment in its place, or let a default
stand in for null; and they write parts back where they were read.  So if every such step
is admitted, whatever a check makes of a value is admitted, at every place of the value and
on copies of it, and so are all that it writes.

A regime says what is admitted: which values a check may work on, what they may become, and
what may be put in which place of a container.  Faults are admitted where the check may come
to them, and to which definitions the check of a node goes on depends on the place as well.

## Main definitions

* `Regime`: what a check may make of values, and what it may write.
* `Regime.Permits`: definitions whose defaults and transforms keep to a regime.
* `Regime.Bears`, `Node.Leads`: the faults of a node, and where its check goes on.

## Main results

* `Regime.ensures_node`: a node keeps to a regime if the checks of its parts do.
* `Regime.ensures_checkWithin`: so does every check, if all faults are admitted.
-/

namespace Conform

/-- The fault of a definition, or out of depth. -/
inductive ValidationError.IsFault : ValidationError → Prop where
  | definition (fault : DefinitionError) : IsFault (.definition fault)
  | exhausted : IsFault .exhausted

/-- What a check may make of values, and what it may write. -/
structure Regime where
  terms : Terms
  /-- The values that a check may work on. -/
  owns : Value → Prop
  /-- What a value may become. -/
  becomes : Value → Value → Prop
  /-- What may be put in a place of a container. -/
  fits : Value → Accessor → Value → Prop
  refl : ∀ value, becomes value value
  trans : ∀ {u v w : Value}, becomes u v → becomes v w → becomes u w
  null : ∀ value, becomes .null value
  moment : ∀ {value : Value} {moment : DateTime}, Check.moment? value = some moment →
    becomes value (.dateTime moment)
  scalar : ∀ {value : Value}, value.ref? = none → owns value
  /-- What stands in a place may be worked on, and what becomes of it may be put back. -/
  read : ∀ {heap : Heap} {container part : Value} (accessor : Accessor), terms.holds heap →
    owns container → heap.step? container accessor = some part →
    owns part ∧ ∀ value, becomes part value → fits container accessor value
  /-- Where nothing stands anything but null may be put. -/
  missing : ∀ {heap : Heap} {container value : Value} (accessor : Accessor), terms.holds heap →
    owns container → heap.step? container accessor = none → value ≠ .null →
    fits container accessor value
  write : ∀ {heap heap' : Heap} {container value : Value} (accessor : Accessor),
    terms.holds heap → owns container → owns value → fits container accessor value →
    heap.set? container accessor value = some heap' → terms.holds heap'
  copy : ∀ {heap : Heap} {value : Value}, terms.holds heap → owns value →
    terms.holds (value.copyWithOrigins heap).2 ∧ owns (value.copyWithOrigins heap).1.1

/-- Anything may be made of values, and the given errors are admitted. -/
def Regime.free (faulty : ValidationError → Prop) : Regime where
  terms := ⟨fun _ => True, faulty⟩
  owns := fun _ => True
  becomes := fun _ _ => True
  fits := fun _ _ _ => True
  refl := fun _ => trivial
  trans := fun _ _ => trivial
  null := fun _ => trivial
  moment := fun _ => trivial
  scalar := fun _ => trivial
  read := fun _ _ _ _ => ⟨trivial, fun _ _ => trivial⟩
  missing := fun _ _ _ _ _ => trivial
  write := fun _ _ _ _ _ _ => trivial
  copy := fun _ _ => ⟨trivial, trivial⟩

/-- To which definitions, and where, the check of a node goes on: one step on in a container,
or at the same place for alternatives, which are tried on copies first. -/
structure Node.Leads {σ : Type} (host : Host σ) (good : Context → Definition → Prop)
    (context : Context) (node : Node Definition) : Prop where
  field : ∀ fields, node.schema = some fields → ∀ env declared env',
    fields.resolve host env = .ok declared env' → ∀ field ∈ declared, ∀ ref,
      good (context.entered ref (.key field.1)) field.2
  item : ∀ item, node.items = some item → ∀ ref accessor, good (context.entered ref accessor) item
  either : ∀ definitions, node.either = some definitions → ∀ d ∈ definitions,
    good context d ∧ ∀ copies, good (context.fork copies) d

namespace Regime

open Check
open Terms (Ensures)

variable {σ : Type} (R : Regime)

/-- What is made of a value may be worked on, and is what the value may become. -/
def Makes (value : Value) (result : Value) (_ : List Violation) : Prop :=
  R.owns result ∧ R.becomes value result

/-- The default and the transform of a definition keep to a regime. -/
def Permits (host : Host σ) : Definition → Prop
  | .node keywords =>
    (∀ fallback, keywords.fallback = some fallback → ∀ world : World σ, R.terms.holds world.heap →
      R.terms.holds (fallback.produce host world).2.heap ∧
        R.owns (fallback.produce host world).1) ∧
      ∀ transform, keywords.custom = some transform → ∀ (value : Value) (world : World σ),
        R.owns value → R.terms.holds world.heap →
        R.terms.holds (transform.apply host value world).2.heap ∧
          ∀ result, (transform.apply host value world).1 = .ok result →
            R.owns result ∧ R.becomes value result
  | _ => True

theorem permits_free (faulty : ValidationError → Prop) (host : Host σ) (definition : Definition) :
    (free faulty).Permits host definition := by
  cases definition with
  | node keywords =>
    exact ⟨fun _ _ _ _ => ⟨trivial, trivial⟩,
      fun _ _ _ _ _ _ => ⟨trivial, fun _ _ => ⟨trivial, trivial⟩⟩⟩
  | _ => trivial

/-- A context in which a violation may be met. -/
def Admits (context : Context) : Prop :=
  context.asserting = true → ∀ violation, R.terms.faulty (.assertion violation)

/-- The faults that a node itself may have are admitted: a default for the value as a whole
that is refused, and fields that cannot be produced. -/
structure Bears (host : Host σ) (context : Context) (node : Node Definition) : Prop where
  fallback : node.fallback ≠ none → context.atRoot = true →
    context.options.policy.allowRootDefault = false →
    R.terms.faulty (.definition (.rootDefault context.pathText))
  fields : ∀ fields, node.schema = some fields → ∀ env fault env',
    fields.resolve host env = .error fault env' → R.terms.faulty (.definition fault)

variable {R} {context : Context} {value : Value} {resolved : Resolved}

theorem Makes.refl {added : List Violation} (h : R.owns value) : R.Makes value value added :=
  ⟨h, R.refl value⟩

theorem Makes.trans {u v w : Value} {added more : List Violation} (h : R.Makes u v added)
    (h' : R.Makes v w more) : R.Makes u w (added ++ more) :=
  ⟨h'.1, R.trans h.2 h'.2⟩

/-! ## Complaints -/

section Complaints

variable (hadmits : R.Admits context)
include hadmits

theorem ensures_report (complaint : Complaint) (inner : List (List Violation)) :
    R.terms.Ensures context (report complaint inner : Check σ Unit) fun _ _ => True :=
  .report (fun h => hadmits h _) fun _ => trivial

theorem ensures_demand (holds : Bool) (complaint : Complaint) :
    R.terms.Ensures context (demand holds complaint : Check σ Unit) fun _ _ => True :=
  .demand (fun h => hadmits h _) (fun _ => trivial) fun _ => trivial

theorem ensures_demandAt (accessor : Accessor) (holds : Bool) (complaint : Complaint) :
    R.terms.Ensures context (demandAt accessor holds complaint : Check σ Unit) fun _ _ => True :=
  .demandAt (fun h => hadmits h _) (fun _ => trivial) fun _ => trivial

end Complaints

/-- A loop of steps that each keep to the regime. -/
theorem ensures_forM {β : Type} {f : β → Check σ PUnit} {xs : List β}
    (h : ∀ x ∈ xs, R.terms.Ensures context (f x) fun _ _ => True) :
    R.terms.Ensures context (xs.forM f) fun _ _ => True :=
  (Ensures.forM (P := fun _ _ => True) h).imp fun _ _ _ => trivial

/-- Whatever comes before, the value is passed on. -/
theorem ensures_return {m : Check σ Unit} (hvalue : R.owns value)
    (h : R.terms.Ensures context m fun _ _ => True) :
    R.terms.Ensures context (do m; return value) (R.Makes value) :=
  .returning (h.imp fun _ _ _ => .refl hvalue)

/-! ## Keywords that look at the value alone -/

section Keywords

variable (hadmits : R.Admits context) (hvalue : R.owns value)
include hvalue

theorem ensures_pass : R.terms.Ensures context (pure value : Check σ Value) (R.Makes value) :=
  .pure (.refl hvalue)

include hadmits

theorem ensures_type :
    R.terms.Ensures context (type resolved value : Check σ Value) (R.Makes value) := by
  unfold type
  split
  · exact ensures_pass hvalue
  · split
    · next moment hmoment => exact .pure ⟨R.scalar rfl, R.moment hmoment⟩
    · exact ensures_return hvalue (ensures_report hadmits _ _)
  · exact ensures_return hvalue (ensures_demand hadmits _ _)

theorem ensures_oneOf :
    R.terms.Ensures context (oneOf resolved value : Check σ Value) (R.Makes value) := by
  unfold oneOf
  split
  · exact ensures_pass hvalue
  · refine Ensures.after (P := fun _ => True) (.readHeap fun _ _ => ⟨rfl, trivial⟩) fun _ _ => ?_
    exact ensures_return hvalue (ensures_demand hadmits _ _)

theorem ensures_bounds :
    R.terms.Ensures context (bounds resolved value : Check σ Value) (R.Makes value) := by
  unfold bounds
  split
  · exact ensures_pass hvalue
  · exact ensures_return hvalue (ensures_forM fun _ _ => ensures_demand hadmits _ _)
  · exact ensures_return hvalue (ensures_demand hadmits _ _)

/-! ## Keywords that look at the fields of an object -/

theorem ensures_withObject {m : Ref → Check σ Unit}
    (hm : ∀ ref, value = .object ref → R.terms.Ensures context (m ref) fun _ _ => True) :
    R.terms.Ensures context (withObject resolved value m) (R.Makes value) := by
  unfold withObject
  split
  · next ref => exact ensures_return hvalue (hm ref rfl)
  · exact ensures_return hvalue (ensures_demand hadmits _ _)

/-- A condition on whether the fields of the given names are there. -/
theorem ensures_presence (names : List String) (condition : Bool → Bool) (complaint : Complaint) :
    R.terms.Ensures context
      (withObject resolved value fun ref => names.forM fun name => do
        let present ← hasField ref name
        demandAt (.key name) (condition present) complaint : Check σ Value) (R.Makes value) :=
  ensures_withObject hadmits hvalue fun _ _ => ensures_forM fun _ _ =>
    .after (P := fun _ => True) (.readHeap fun _ _ => ⟨rfl, trivial⟩) fun _ _ =>
      ensures_demandAt hadmits _ _ _

theorem ensures_require :
    R.terms.Ensures context (require resolved value : Check σ Value) (R.Makes value) := by
  unfold require
  split
  · exact ensures_pass hvalue
  · exact ensures_presence hadmits hvalue _ id _

theorem ensures_restrict :
    R.terms.Ensures context (restrict resolved value : Check σ Value) (R.Makes value) := by
  unfold restrict
  split
  · exact ensures_pass hvalue
  · exact ensures_presence hadmits hvalue _ not _

end Keywords

/-! ## Keywords that go into the parts -/

/-- The checks of parts keep to the regime. -/
def Keeps (R : Regime) (recurse : Recurse σ) (good : Context → Definition → Prop) : Prop :=
  ∀ (context : Context) (value : Value) (definition : Definition), R.Admits context →
    R.owns value → good context definition →
    R.terms.Ensures context (recurse value definition) (R.Makes value)

section Parts

variable {host : Host σ} {recurse : Recurse σ} {good : Context → Definition → Prop} {ref : Ref}
  {definition : Definition} (hkeeps : R.Keeps recurse good) (hadmits : R.Admits context)
include hkeeps hadmits

theorem ensures_field (hobject : R.owns (.object ref)) {name : String}
    (hdefinition : good { context with path := .key name :: context.path } definition) :
    R.terms.Ensures context (field recurse ref name definition) fun _ _ => True := by
  -- What was read may be put back as what it has become; null is not put where nothing was.
  refine .after (P := fun current => R.owns (current.getD .null) ∧ ∀ checked,
      R.becomes (current.getD .null) checked → (current.isSome || !checked.isAbsent) = true →
      R.fits (.object ref) (.key name) checked)
    (.readHeap fun heap hholds => ⟨rfl, ?_⟩) fun current hcurrent => ?_
  · cases hget : (heap.fields ref).get? name with
    | some part =>
      obtain ⟨howns, hfits⟩ := R.read (.key name) hholds hobject hget
      exact ⟨howns, fun checked hbecomes _ => hfits checked hbecomes⟩
    | none =>
      refine ⟨R.scalar rfl, fun checked _ hthere => ?_⟩
      refine R.missing (.key name) hholds hobject hget fun hnull => ?_
      rw [hnull] at hthere
      cases hthere
  · obtain ⟨howns, hfits⟩ := hcurrent
    have hunder : R.terms.Ensures context (under (.key name)
        (recurse (current.getD .null) definition)) (R.Makes (current.getD .null)) :=
      .under (hkeeps { context with path := .key name :: context.path } _ _ hadmits howns
        hdefinition)
    refine hunder.bind fun checked _ hchecked => .ite (fun hthere => ?_) fun _ => .pure trivial
    exact .changeHeap (fun heap hholds => R.write (.key name) hholds hobject hchecked.1
      (hfits checked hchecked.2 hthere) rfl) trivial

omit hkeeps in
theorem ensures_undeclared (declared : List String) :
    R.terms.Ensures context (undeclared ref declared : Check σ Unit) fun _ _ => True :=
  .after (P := fun _ => True) (.readHeap fun _ _ => ⟨rfl, trivial⟩) fun _ _ =>
    ensures_forM fun _ _ => ensures_demandAt hadmits _ _ _

omit hkeeps in
/-- Into a container, unless the way has come through it. -/
theorem ensures_inside {m : Check σ Unit}
    (hm : R.terms.Ensures { context with ancestors := context.originOf ref :: context.ancestors }
      m fun _ _ => True) :
    R.terms.Ensures context (inside ref m) fun _ _ => True :=
  .inside (fun _ => ensures_report hadmits _ _) fun _ => hm

theorem ensures_schema (hvalue : R.owns value) (hbears : R.Bears host context resolved.node)
    (hleads : resolved.node.Leads host good context) :
    R.terms.Ensures context (schema host recurse resolved value) (R.Makes value) := by
  unfold schema
  split
  · exact ensures_pass hvalue
  · next fields hsome =>
    refine ensures_withObject hadmits hvalue fun ref hobject => ?_
    subst hobject
    refine .after (P := fun declared : List (String × Definition) => ∀ field ∈ declared, ∀ ref,
        good (context.entered ref (.key field.1)) field.2)
      (.ofForcing (fun env declared env' h => ⟨rfl, hleads.field fields hsome env declared env' h⟩)
        (hbears.fields fields hsome)) fun declared hdeclared => ensures_inside hadmits ?_
    have hinner :
        R.Admits { context with ancestors := context.originOf ref :: context.ancestors } := hadmits
    refine Ensures.bind (P := fun _ _ => True) (ensures_forM fun field hfield => ?_)
      fun _ _ _ => ?_
    · exact ensures_field hkeeps hinner hvalue (hdeclared field hfield ref)
    · exact .ite (fun _ => ensures_undeclared hinner _) fun _ => .pure trivial

theorem ensures_item (harray : R.owns (.array ref)) {i : Nat}
    (hdefinition : good { context with path := .index i :: context.path } definition)
    (howns : R.owns value)
    (hfits : ∀ checked, R.becomes value checked → R.fits (.array ref) (.index i) checked) :
    R.terms.Ensures context (item recurse ref definition value i) fun _ _ => True := by
  have hunder : R.terms.Ensures context (under (.index i) (recurse value definition))
      (R.Makes value) :=
    .under (hkeeps { context with path := .index i :: context.path } _ _ hadmits howns hdefinition)
  refine hunder.bind fun checked _ hchecked => .changeHeap (fun heap hholds => ?_) trivial
  by_cases hlt : i < (heap.items ref).length
  · exact R.write (.index i) hholds harray hchecked.1 (hfits checked hchecked.2)
      (if_pos hlt)
  · -- Where there is no such item any more, nothing is put back.
    rwa [heap.setItem_of_length_le (Nat.not_lt.1 hlt)]

theorem ensures_entry (hobject : R.owns (.object ref)) {name : String}
    (hdefinition : good { context with path := .key name :: context.path } definition)
    (howns : R.owns value)
    (hfits : ∀ checked, R.becomes value checked → R.fits (.object ref) (.key name) checked) :
    R.terms.Ensures context (entry recurse ref definition name value) fun _ _ => True := by
  have hunder : R.terms.Ensures context (under (.key name) (recurse value definition))
      (R.Makes value) :=
    .under (hkeeps { context with path := .key name :: context.path } _ _ hadmits howns hdefinition)
  exact hunder.bind fun checked _ hchecked => .changeHeap (fun heap hholds =>
    R.write (.key name) hholds hobject hchecked.1 (hfits checked hchecked.2) rfl) trivial

theorem ensures_items (hvalue : R.owns value)
    (hleads : resolved.node.Leads host good context) :
    R.terms.Ensures context (items recurse resolved value) (R.Makes value) := by
  unfold items
  split
  · exact ensures_pass hvalue
  · next definition ref hsome =>
    refine ensures_return hvalue (ensures_inside hadmits ?_)
    have hinner :
        R.Admits { context with ancestors := context.originOf ref :: context.ancestors } := hadmits
    refine .after (P := fun items : List Value => ∀ value i, (value, i) ∈ items.zipIdx →
        R.owns value ∧ ∀ checked, R.becomes value checked →
          R.fits (.array ref) (.index i) checked)
      (.readHeap fun heap hholds => ⟨rfl, fun value i hmem => ?_⟩) fun items hparts => ?_
    · exact R.read (.index i) hholds hvalue (List.mk_mem_zipIdx_iff_getElem?.1 hmem)
    · refine ensures_forM fun place hplace => ?_
      obtain ⟨howns, hfits⟩ := hparts place.1 place.2 hplace
      exact ensures_item hkeeps hinner hvalue (hleads.item definition hsome ref _) howns hfits
  · next definition ref hsome =>
    refine ensures_return hvalue (ensures_inside hadmits ?_)
    have hinner :
        R.Admits { context with ancestors := context.originOf ref :: context.ancestors } := hadmits
    refine .after (P := fun entries : Entries Value => ∀ name value, (name, value) ∈ entries →
        R.owns value ∧ ∀ checked, R.becomes value checked →
          R.fits (.object ref) (.key name) checked)
      (.readHeap fun heap hholds => ⟨rfl, fun name value hmem => ?_⟩) fun entries hparts => ?_
    · exact R.read (.key name) hholds hvalue (OrderedMap.get?_of_mem hmem)
    · refine ensures_forM fun place hplace => ?_
      obtain ⟨howns, hfits⟩ := hparts place.1 place.2 hplace
      exact ensures_entry hkeeps hinner hvalue (hleads.item definition hsome ref _) howns hfits
  · exact ensures_return hvalue (ensures_report hadmits _ _)

/-! ## Alternatives -/

theorem ensures_either (hvalue : R.owns value)
    (hleads : resolved.node.Leads host good context) :
    R.terms.Ensures context (either recurse resolved value) (R.Makes value) := by
  unfold either
  split
  · exact ensures_pass hvalue
  · next definitions hsome =>
    refine .alternatives (fun _ _ => True) (fun d hd => .tryAlternative fun heap hholds => ?_)
      (fun d hd _ => hkeeps context value d hadmits hvalue
        (hleads.either definitions hsome d hd).1)
      (fun _ inner => (ensures_report hadmits _ inner).imp fun _ _ _ => .refl hvalue) []
    -- A trial never stops at a violation, and it works on a copy.
    obtain ⟨hcopied, howns⟩ := R.copy hholds hvalue
    have hfork : R.Admits (context.fork (value.copyWithOrigins heap).1.2) := by rintro ⟨⟩
    refine ⟨R.terms, hcopied, fun _ => id, fun _ => id, ?_⟩
    exact (hkeeps _ _ d hfork howns ((hleads.either definitions hsome d hd).2 _)).imp
      fun _ _ _ => ⟨rfl, trivial⟩

end Parts

/-! ## Nodes -/

section Nodes

variable {host : Host σ} {recurse : Recurse σ} {good : Context → Definition → Prop}

/-- The last step keeps to a regime that permits it. -/
theorem ensures_custom (hadmits : R.Admits context) (hvalue : R.owns value)
    (hpermits : R.Permits host (.node resolved.node)) :
    R.terms.Ensures context (custom host resolved value) (R.Makes value) := by
  unfold custom
  split
  · exact ensures_pass hvalue
  · next transform hsome =>
    refine .after (P := fun result => ∀ value', result = .ok value' →
        R.owns value' ∧ R.becomes value value')
      (.ofRun fun world hholds => ?_) fun result hresult => ?_
    · obtain ⟨hholds', hresult⟩ := hpermits.2 transform hsome value world hvalue hholds
      exact ⟨hholds', rfl, hresult⟩
    · cases result with
      | ok value' => exact .pure (hresult value' rfl)
      | error reason => exact ensures_return hvalue (ensures_report hadmits _ _)

theorem ensures_supply (hvalue : R.owns value) (hbears : R.Bears host context resolved.node)
    (hpermits : R.Permits host (.node resolved.node)) :
    R.terms.Ensures context (supply host resolved value) (R.Makes value) := by
  unfold supply
  split
  · next fallback hsome =>
    refine .after (P := fun refused => refused =
        (context.atRoot && !context.options.policy.allowRootDefault))
      (.readContext (f := fun c => c.atRoot && !c.options.policy.allowRootDefault)
        (fun _ => rfl) ⟨rfl, rfl⟩) fun refused hrefused => .ite (fun htrue => ?_) fun _ => ?_
    · obtain ⟨hroot, hpolicy⟩ := Bool.and_eq_true_iff.1 (hrefused.symm.trans htrue)
      refine .after (P := fun path => path = context.pathText) (.readContext (f := Context.pathText)
        (fun _ => rfl) ⟨rfl, rfl⟩) fun path hpath => .throw ?_
      subst hpath
      exact hbears.fallback (by simp [hsome]) hroot (Bool.not_eq_true' _ ▸ hpolicy)
    · refine .ofRun fun world hholds => ?_
      obtain ⟨hholds', howns⟩ := hpermits.1 fallback hsome world hholds
      exact ⟨hholds', howns, R.null _⟩
  · exact ensures_pass hvalue

variable (hkeeps : R.Keeps recurse good) (hadmits : R.Admits context)
include hkeeps hadmits

theorem ensures_demands (hpermits : R.Permits host (.node resolved.node))
    (hbears : R.Bears host context resolved.node)
    (hleads : resolved.node.Leads host good context) (hvalue : R.owns value) :
    R.terms.Ensures context (demands host recurse resolved value) (R.Makes value) := by
  unfold demands
  refine .ite (fun _ => ensures_return hvalue (ensures_demand hadmits _ _)) fun _ => ?_
  -- Each keyword makes something of what the keywords before it have made of the value.
  have hstep : ∀ {keyword : Demand σ},
      (∀ v, R.owns v → R.terms.Ensures context (keyword resolved v) (R.Makes v)) →
      ∀ v, R.Makes value v [] → R.terms.Ensures context (keyword resolved v)
        fun w added => R.Makes value w [] ∧ True :=
    fun hkeyword v hv => (hkeyword v hv.1).imp fun w _ hw => ⟨⟨hw.1, R.trans hv.2 hw.2⟩, trivial⟩
  have hkeywords : List.Forall₂ (fun keyword P => ∀ v, R.Makes value v [] →
      R.terms.Ensures context (keyword resolved v) fun w added => R.Makes value w [] ∧ P added)
      (keywords host recurse) (List.replicate 9 fun _ => True) := by
    refine .cons (hstep fun v hv => ensures_type hadmits hv) <|
      .cons (hstep fun v hv => ensures_oneOf hadmits hv) <|
      .cons (hstep fun v hv => ensures_bounds hadmits hv) <|
      .cons (hstep fun v hv => ensures_either hkeeps hadmits hv hleads) <|
      .cons (hstep fun v hv => ensures_schema hkeeps hadmits hv hbears hleads) <|
      .cons (hstep fun v hv => ensures_require hadmits hv) <|
      .cons (hstep fun v hv => ensures_restrict hadmits hv) <|
      .cons (hstep fun v hv => ensures_items hkeeps hadmits hv hleads) <|
      .cons (hstep fun v hv => ensures_custom hadmits hv hpermits) .nil
  exact (Ensures.foldlM (fun v => R.Makes value v []) hkeywords (.refl hvalue)).imp
    fun w _ hw => hw.1

/-- **A node keeps to a regime** if the checks of its parts do. -/
theorem ensures_node {definition : Definition} (hvalue : R.owns value)
    (hfaults : ∀ env fault env',
      resolve host context.options.policy definition env = .error fault env' →
      R.terms.faulty (.definition fault))
    (hnode : ∀ env keywords env', definition.unfold host maxThunkChain env = .ok keywords env' →
      R.Permits host (.node keywords) ∧ R.Bears host context keywords ∧
        keywords.Leads host good context) :
    R.terms.Ensures context (node host recurse value definition) (R.Makes value) := by
  refine .after (P := fun policy => policy = context.options.policy)
    (.readContext (f := fun c => c.options.policy) (fun _ => rfl) ⟨rfl, rfl⟩)
    fun policy hpolicy => ?_
  subst hpolicy
  refine .after (P := fun resolved => R.Permits host (.node resolved.node) ∧
      R.Bears host context resolved.node ∧ resolved.node.Leads host good context)
    (.ofForcing (fun env resolved env' hresolve => ⟨rfl, ?_⟩) hfaults)
    fun resolved ⟨hpermits, hbears, hleads⟩ => ?_
  · obtain ⟨keywords, hunfold, rfl⟩ := Definition.unfold_of_resolve hresolve
    exact hnode env keywords env' hunfold
  · refine (ensures_supply hvalue hbears hpermits).bind fun v _ hv => ?_
    exact (ensures_demands hkeeps hadmits hpermits hbears hleads hv.1).imp fun w _ hw => hv.trans hw

end Nodes

/-- **Every check keeps to a regime** that permits the definitions it meets, if all faults are
admitted. -/
theorem ensures_checkWithin (R : Regime) (hfaults : ∀ fault, fault.IsFault → R.terms.faulty fault)
    (host : Host σ) (good : Definition → Prop) (hgood : ∀ d, good d → R.Permits host d)
    (depth : Nat) :
    R.Keeps (checkWithin host depth) fun _ => Definition.Throughout host good := by
  have hdefinition : ∀ fault, R.terms.faulty (.definition fault) :=
    fun _ => hfaults _ (.definition _)
  induction depth with
  | zero => exact fun context value definition _ _ _ => .throw (hfaults _ .exhausted)
  | succ depth ih =>
    intro context value definition hadmits hvalue hthroughout
    have hvisited : R.Admits context.visited := hadmits
    refine .visiting (fun _ => hdefinition _) fun _ => ?_
    refine ensures_node ih hvisited hvalue (fun _ fault _ _ => hdefinition fault) ?_
    intro env keywords env' hunfold
    have hnode := hthroughout.of_met (Definition.met_unfold hunfold)
    refine ⟨hgood _ hnode.self,
      ⟨fun _ _ _ => hdefinition _, fun _ _ _ fault _ _ => hdefinition fault⟩,
      ⟨fun _ hschema _ _ _ hresolve _ hfield _ =>
        hnode.of_met (.field .refl hschema hresolve hfield),
      fun _ hitems _ _ => hnode.of_met (.item .refl hitems), fun _ heither _ hmem => ?_⟩⟩
    have halternative := hnode.of_met (.alternative .refl heither hmem)
    exact ⟨halternative, fun _ => halternative⟩

end Regime

end Conform
