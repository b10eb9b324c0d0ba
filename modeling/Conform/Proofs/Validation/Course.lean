import Conform.Proofs.Validation.Arrival
import Conform.Proofs.Validation.Evolution
import Conform.Proofs.Validation.Sparing
import Conform.Proofs.Value.Growth

/-!
# The course of a check

What a check makes of a heap often hangs on the value at which it stands: on whether the value
contains itself, say, or holds a container twice.  A course says at which values a check may
stand, and what it may make of the heap and the value on its way.  It is kept if each of its
steps is: to fill in a document, to go on to a part and put back what has come of it, to try an
alternative on a copy.

An array or object is gone through as it was when the check came to it; so what is put back is
put where it was read, however far the heap has gone in the meantime.

## Main definitions

* `Course`: at which values a check may stand, and what it makes of them.
* `Course.Keeps`: checks of parts that keep to a course.

## Main results

* `Course.arrives_demands`, `Course.arrives_node`: a node keeps to a course if its parts do.
* `Course.keeps_checkSparing`: so does every check, also if it spares documents.
-/

namespace Conform

/-- What is true of a definition and of all that it leads to is true of the node that it unfolds
to, and of all to which the parts of the node lead. -/
theorem Definition.Throughout.leads {σ : Type} {host : Host σ} {good : Definition → Prop}
    {definition : Definition} (h : definition.Throughout host good) {limit : Nat} {env env' : σ}
    {keywords : Node Definition} (hunfold : definition.unfold host limit env = .ok keywords env')
    (context : Context) :
    good (.node keywords) ∧
      keywords.Leads host (fun _ => Definition.Throughout host good) context := by
  have hnode := h.of_met (Definition.met_unfold hunfold)
  refine ⟨hnode.self,
    ⟨fun _ hschema _ _ _ hresolve _ hfield _ => hnode.of_met (.field .refl hschema hresolve hfield),
    fun _ hitems _ _ => hnode.of_met (.item .refl hitems), fun _ heither _ hmem => ?_⟩⟩
  have halternative := hnode.of_met (.alternative .refl heither hmem)
  exact ⟨halternative, fun _ => halternative⟩

/-- At which values a check may stand, and what it makes of the heap and the value. -/
structure Course (σ : Type) where
  /-- What may be reported. -/
  good : Violation → Prop
  /-- The documents that are not filled in. -/
  spared : Filling σ → Prop
  /-- Where a check may stand. -/
  stands : Context → Heap → Value → Prop
  /-- What it makes of the heap and the value. -/
  goes : Context → Heap → Value → Heap → Value → Prop
  plain : ∀ (path : String) (complaint : Complaint), complaint ≠ .cycle →
    good (.ofComplaint path complaint [])
  none : ∀ (path : String) (inner : List (List Violation)),
    (∀ violations ∈ inner, ∀ violation ∈ violations, good violation) →
    good (.ofComplaint path .noAlternative inner)
  /-- Whether a container may lie on the way to itself. -/
  cycle : ∀ {context : Context} {heap : Heap} {value : Value} {ref : Ref},
    stands context heap value → value.ref? = some ref → context.originOf ref ∈ context.ancestors →
    ∀ path, good (.ofComplaint path .cycle [])
  refl : ∀ {context : Context} {heap : Heap} {value : Value}, stands context heap value →
    goes context heap value heap value
  scalar : ∀ {context : Context} {heap : Heap} {value result : Value}, result.ref? = .none →
    goes context heap value heap result
  trans : ∀ {context : Context} {heap heap' heap'' : Heap} {u v w : Value},
    stands context heap u → goes context heap u heap' v → goes context heap' v heap'' w →
    goes context heap u heap'' w
  /-- A check may stand at what it has made of the value. -/
  stays : ∀ {context : Context} {heap heap' : Heap} {value result : Value},
    stands context heap value → goes context heap value heap' result →
    stands context heap' result
  visited : ∀ {context : Context} {heap : Heap} {value : Value},
    stands context heap value → stands context.visited heap value
  leave : ∀ {context : Context} {heap heap' : Heap} {value result : Value},
    goes context.visited heap value heap' result → goes context heap value heap' result
  fill : ∀ {context : Context} {heap : Heap} {json : Json} {V : List Violation} {env : σ},
    stands context heap .null → ¬ spared ⟨json, ⟨context.holding V, ⟨heap, env⟩⟩⟩ →
    goes context heap .null (Value.ofJson json heap).2 (Value.ofJson json heap).1
  /-- One step on, from where the parts were read. -/
  entered : ∀ {context : Context} {heap heap' : Heap} {value : Value} {ref : Ref},
    stands context heap value → value.ref? = some ref → context.originOf ref ∉ context.ancestors →
    goes context heap value heap' value → ∀ accessor,
      stands (context.entered ref accessor) heap' (heap.get value accessor)
  /-- Back, without putting anything anywhere. -/
  skip : ∀ {context : Context} {heap heap' heap'' : Heap} {value result : Value} {ref : Ref}
    {accessor : Accessor}, stands context heap value → value.ref? = some ref →
    goes context heap value heap' value →
    goes (context.entered ref accessor) heap' (heap.get value accessor) heap'' result →
    goes context heap value heap'' value
  /-- Back, putting what has come of the part in its place. -/
  put : ∀ {context : Context} {heap heap' heap'' : Heap} {value result : Value} {ref : Ref}
    {accessor : Accessor}, stands context heap value → value.ref? = some ref →
    goes context heap value heap' value →
    goes (context.entered ref accessor) heap' (heap.get value accessor) heap'' result →
    goes context heap value (heap''.put ref accessor result) value
  /-- To a copy. -/
  fork : ∀ {context : Context} {heap : Heap} {value : Value}, stands context heap value →
    stands (context.fork (value.copyWithOrigins heap).1.2) (value.copyWithOrigins heap).2
      (value.copyWithOrigins heap).1.1
  /-- Back from a copy. -/
  back : ∀ {context : Context} {heap heap' : Heap} {value result : Value},
    stands context heap value →
    goes (context.fork (value.copyWithOrigins heap).1.2) (value.copyWithOrigins heap).2
      (value.copyWithOrigins heap).1.1 heap' result →
    goes context heap value heap' value

namespace Course

open Check

variable {σ : Type} (C : Course σ)

/-- The checks of parts keep to the course. -/
def Keeps (recurse : Recurse σ) (good : Definition → Prop) : Prop :=
  ∀ (context : Context) (heap : Heap) (value : Value) (definition : Definition),
    good definition → C.stands context heap value →
    Arrives C.good context heap (recurse value definition) (C.goes context heap value)

variable {C} {context : Context} {heap : Heap} {value : Value} {resolved : Resolved}

/-! ## Keywords that look at the value alone -/

/-- A condition, whether it holds or not. -/
theorem arrives_demand {holds : Bool} {complaint : Complaint} {post : Heap → Unit → Prop}
    (hcomplaint : complaint ≠ .cycle) (h : post heap ()) :
    Arrives C.good context heap (demand holds complaint : Check σ Unit) post :=
  .demand (C.plain _ _ hcomplaint) h

section Alone

variable (hstands : C.stands context heap value)
include hstands

theorem arrives_type :
    Arrives C.good context heap (type resolved value : Check σ Value)
      (C.goes context heap value) := by
  unfold type
  split
  · exact .pure (C.refl hstands)
  · split
    · exact .pure (C.scalar rfl)
    · exact .returning (.report (C.plain _ _ nofun) (C.refl hstands))
  · exact .returning (arrives_demand nofun (C.refl hstands))

theorem arrives_oneOf :
    Arrives C.good context heap (oneOf resolved value : Check σ Value)
      (C.goes context heap value) := by
  unfold oneOf
  split
  · exact .pure (C.refl hstands)
  · exact .afterHeap (.returning (arrives_demand nofun (C.refl hstands)))

theorem arrives_bounds :
    Arrives C.good context heap (bounds resolved value : Check σ Value)
      (C.goes context heap value) := by
  unfold bounds
  split
  · exact .pure (C.refl hstands)
  · next bounds x _ =>
    exact .returning (.forM (C.goes context heap (.number x) · (.number x))
      (fun _ _ _ hgoes => arrives_demand (by nofun) hgoes) (C.refl hstands))
  · exact .returning (arrives_demand nofun (C.refl hstands))

/-! ## Keywords that look at the fields of an object -/

theorem arrives_withObject {m : Ref → Check σ Unit}
    (hm : ∀ ref, value = .object ref → Arrives C.good context heap (m ref) fun heap' _ =>
      C.goes context heap value heap' value) :
    Arrives C.good context heap (withObject resolved value m) (C.goes context heap value) := by
  unfold withObject
  split
  · next ref => exact .returning (hm ref rfl)
  · exact .returning (arrives_demand nofun (C.refl hstands))

/-- A condition on whether the fields of the given names are there. -/
theorem arrives_presence (names : List String) (condition : Bool → Bool) {complaint : Complaint}
    (hcomplaint : complaint ≠ .cycle) :
    Arrives C.good context heap
      (withObject resolved value fun ref => names.forM fun name => do
        let present ← hasField ref name
        demandAt (.key name) (condition present) complaint : Check σ Value)
      (C.goes context heap value) :=
  arrives_withObject hstands fun _ _ => .forM (C.goes context heap value · value)
    (fun _ _ _ hgoes => .afterHeap (.demandAt (C.plain _ _ hcomplaint) hgoes)) (C.refl hstands)

theorem arrives_require :
    Arrives C.good context heap (require resolved value : Check σ Value)
      (C.goes context heap value) := by
  unfold require
  split
  · exact .pure (C.refl hstands)
  · exact arrives_presence hstands _ id nofun

theorem arrives_restrict :
    Arrives C.good context heap (restrict resolved value : Check σ Value)
      (C.goes context heap value) := by
  unfold restrict
  split
  · exact .pure (C.refl hstands)
  · exact arrives_presence hstands _ not nofun

/-- The library has one last step of its own, which looks at an array and gives it back. -/
theorem arrives_custom {host : Host σ}
    (hunaided : ∀ code, resolved.node.custom ≠ some (.host code)) :
    Arrives C.good context heap (custom host resolved value) (C.goes context heap value) := by
  unfold custom
  split
  · exact .pure (C.refl hstands)
  · next transform hsome =>
    rcases transform with _ | code
    · have happly : Arrives C.good context heap (Check.ofRun (Transform.nonEmpty.apply host value))
          fun heap' result => heap' = heap ∧ ∀ other, result = .ok other → other = value := by
        refine .ofRun fun env => ⟨?_, fun other hother => Transform.eq_of_nonEmpty hother⟩
        rw [Transform.world_nonEmpty]
      refine happly.bind fun heap' result hresult => ?_
      obtain ⟨rfl, hvalue⟩ := hresult
      rcases result with reason | other
      · exact .returning (.report (C.plain _ _ nofun) (C.refl hstands))
      · obtain rfl := hvalue other rfl
        exact .pure (C.refl hstands)
    · exact absurd hsome (hunaided code)

end Alone

/-! ## Keywords that go into the parts -/

section Parts

variable {host : Host σ} {recurse : Recurse σ} {good : Definition → Prop} {ref : Ref}
  {definition : Definition} (hkeeps : C.Keeps recurse good)
include hkeeps

/-- One step on, to a part that was read in `heap`, when the check has gone on to `now`. -/
theorem arrives_part {now : Heap} (hstands : C.stands context heap value)
    (href : value.ref? = some ref) (hnew : context.originOf ref ∉ context.ancestors)
    (hnow : C.goes context heap value now value) (hdefinition : good definition)
    (accessor : Accessor) :
    Arrives C.good { context with ancestors := context.originOf ref :: context.ancestors } now
      (under accessor (recurse (heap.get value accessor) definition))
      (C.goes (context.entered ref accessor) now (heap.get value accessor)) :=
  .under (hkeeps (context.entered ref accessor) now _ definition hdefinition
    (C.entered hstands href hnew hnow accessor))

/-- A field is read where the check stands. -/
theorem arrives_field (hstands : C.stands context heap (.object ref))
    (hnew : context.originOf ref ∉ context.ancestors) (hdefinition : good definition)
    (name : String) :
    Arrives C.good { context with ancestors := context.originOf ref :: context.ancestors } heap
      (field recurse ref name definition)
      fun heap' _ => C.goes context heap (.object ref) heap' (.object ref) := by
  have hpart := arrives_part hkeeps hstands rfl hnew (C.refl hstands) hdefinition (.key name)
  refine .afterHeap (hpart.bind fun heap' checked hchecked =>
    .ite (fun _ => .changeHeap ?_) fun _ => .pure ?_)
  · rw [Heap.insertField_eq_put]
    exact C.put hstands rfl (C.refl hstands) hchecked
  · exact C.skip hstands rfl (C.refl hstands) hchecked

omit hkeeps in
theorem arrives_undeclared (declared : List String) {post : Heap → Unit → Prop}
    (h : post heap ()) :
    Arrives C.good context heap (undeclared ref declared : Check σ Unit) post :=
  .afterHeap ((Arrives.forM (post · ()) (fun _ _ _ hpost =>
    .demandAt (C.plain _ _ (by nofun)) hpost) h).imp fun _ _ hpost => hpost)

omit hkeeps in
/-- Into a container, unless the way has come through it. -/
theorem arrives_inside (hstands : C.stands context heap value) (href : value.ref? = some ref)
    {m : Check σ Unit}
    (h : context.originOf ref ∉ context.ancestors → Arrives C.good
      { context with ancestors := context.originOf ref :: context.ancestors } heap m
      fun heap' _ => C.goes context heap value heap' value) :
    Arrives C.good context heap (inside ref m)
      fun heap' _ => C.goes context heap value heap' value :=
  .inside (fun hmem => .report (C.cycle hstands href hmem _) (C.refl hstands)) h

theorem arrives_schema (hstands : C.stands context heap value)
    (hleads : resolved.node.Leads host (fun _ => good) context) :
    Arrives C.good context heap (schema host recurse resolved value)
      (C.goes context heap value) := by
  unfold schema
  split
  · exact .pure (C.refl hstands)
  · next fields hsome =>
    refine arrives_withObject hstands fun ref hobject => ?_
    subst hobject
    have hdeclared : Arrives C.good context heap (Check.ofForcing (fields.resolve host))
        fun heap' declared => heap' = heap ∧ ∀ field ∈ declared, good field.2 :=
      .ofForcing fun env declared env' hresolve => ⟨rfl, fun field hfield =>
        hleads.field fields hsome env declared env' hresolve field hfield 0⟩
    refine hdeclared.bind fun heap' declared hgood => ?_
    obtain ⟨rfl, hgood⟩ := hgood
    refine arrives_inside hstands rfl fun hnew => ?_
    refine (Arrives.forM (C.goes context heap' (.object ref) · (.object ref))
      (fun field hfield now hnow => ?_) (C.refl hstands)).bind fun now _ hnow =>
        .ite (fun _ => arrives_undeclared _ hnow) fun _ => .pure hnow
    refine (arrives_field hkeeps (C.stays hstands hnow) hnew (hgood field hfield) field.1).imp
      fun later _ hlater => C.trans hstands hnow hlater

/-- What comes of a part that was read when the container was entered is put in its place. -/
theorem arrives_write {now : Heap} (hstands : C.stands context heap value)
    (href : value.ref? = some ref) (hnew : context.originOf ref ∉ context.ancestors)
    (hnow : C.goes context heap value now value) (hdefinition : good definition)
    (accessor : Accessor) {part : Value} (hpart : heap.get value accessor = part)
    {f : Heap → Value → Heap} (hput : ∀ heap result, f heap result = heap.put ref accessor result) :
    Arrives C.good { context with ancestors := context.originOf ref :: context.ancestors } now
      (do let checked ← under accessor (recurse part definition)
          changeHeap (f · checked))
      fun heap' _ => C.goes context heap value heap' value := by
  subst hpart
  refine (arrives_part hkeeps hstands href hnew hnow hdefinition accessor).bind
    fun heap' checked hchecked => .changeHeap ?_
  rw [hput]
  exact C.put hstands href hnow hchecked

theorem arrives_items (hstands : C.stands context heap value)
    (hleads : resolved.node.Leads host (fun _ => good) context) :
    Arrives C.good context heap (items recurse resolved value) (C.goes context heap value) := by
  unfold items
  split
  · exact .pure (C.refl hstands)
  · next definition ref hsome =>
    refine .returning (arrives_inside hstands rfl fun hnew => .afterHeap ?_)
    refine .forM (C.goes context heap (.array ref) · (.array ref)) (fun place hplace now hnow => ?_)
      (C.refl hstands)
    refine arrives_write hkeeps hstands rfl hnew hnow (hleads.item definition hsome 0 (.index 0))
      (.index place.2) ?_ fun _ _ => Heap.setItem_eq_put _
    have hget : (heap.items ref)[place.2]? = some place.1 :=
      List.mk_mem_zipIdx_iff_getElem?.1 hplace
    change ((heap.items ref)[place.2]?).getD .null = place.1
    rw [hget, Option.getD_some]
  · next definition ref hsome =>
    refine .returning (arrives_inside hstands rfl fun hnew => .afterHeap ?_)
    refine .forM (C.goes context heap (.object ref) · (.object ref))
      (fun place hplace now hnow => ?_) (C.refl hstands)
    refine arrives_write hkeeps hstands rfl hnew hnow (hleads.item definition hsome 0 (.key ""))
      (.key place.1) ?_ fun _ _ => Heap.insertField_eq_put _
    have hget : (heap.fields ref).get? place.1 = some place.2 := OrderedMap.get?_of_mem hplace
    change ((heap.fields ref).get? place.1).getD .null = place.2
    rw [hget, Option.getD_some]
  · exact .returning (.report (C.plain _ _ nofun) (C.refl hstands))

/-- Alternatives are tried on copies, and then the first clean one is taken on the value. -/
theorem arrives_either (hstands : C.stands context heap value)
    (hleads : resolved.node.Leads host (fun _ => good) context) :
    Arrives C.good context heap (either recurse resolved value) (C.goes context heap value) := by
  unfold either
  split
  · exact .pure (C.refl hstands)
  · next definitions hsome =>
    refine .alternatives (fun now => C.goes context heap value now value)
      (fun d hd now hnow => ?_) (fun d hd now hnow => ?_) (fun inner hinner now hnow => ?_) []
      nofun (C.refl hstands)
    · have hstands' := C.stays hstands hnow
      refine (hkeeps _ _ _ d ((hleads.either definitions hsome d hd).1) (C.fork hstands')).imp ?_
      exact fun later result hlater => C.trans hstands hnow (C.back hstands' hlater)
    · have hd := (hleads.either definitions hsome d hd).1
      refine (hkeeps _ _ _ d hd (C.stays hstands hnow)).imp ?_
      exact fun later result hlater => C.trans hstands hnow hlater
    · exact ⟨C.none _ inner hinner, hnow⟩

end Parts

/-! ## Nodes -/

section Nodes

variable {host : Host σ} {recurse : Recurse σ} {good : Definition → Prop}
  {refusal : ValidationError}

/-- The default is a document, if there is one, and is not to be spared. -/
theorem arrives_supply (hstands : C.stands context heap value)
    (hrefusal : ∀ violation ∈ refusal.violations, C.good violation)
    (hunaided : ∀ code, resolved.node.fallback ≠ some (.produced code)) :
    Arrives C.good context heap (supplySparing host C.spared refusal resolved value)
      (C.goes context heap value) := by
  refine .guarding hrefusal fun V env hpermitted => ?_
  by_cases hfills : ∃ json, resolved.Fills context value json
  · obtain ⟨json, hfills⟩ := hfills
    have hfills' : resolved.Fills (context.holding V) value json := { hfills with }
    rw [supply_of_fills host hfills']
    obtain rfl := hfills.absent
    exact .ok_nil (C.fill hstands (hpermitted json hfills'))
  · -- There is a value, or no default, or the default is refused.
    suffices Arrives C.good context heap (supply host resolved value)
      (C.goes context heap value) from this V env
    unfold supply
    split
    · next fallback hfallback =>
      refine .afterContext (f := fun c => c.atRoot && !c.options.policy.allowRootDefault)
        (fun _ => rfl) (.ite (fun _ => ?_) fun hallowed => ?_)
      · exact .afterContext (f := Context.pathText) (fun _ => rfl) (.throw rfl)
      · rcases fallback with json | code
        · exact absurd ⟨json, rfl, hfallback, Bool.eq_false_iff.2 hallowed⟩ hfills
        · exact absurd hfallback (hunaided code)
    · exact .pure (C.refl hstands)

variable (hkeeps : C.Keeps recurse good)
include hkeeps

/-- **The keywords of a node keep to a course** if the checks of its parts do. -/
theorem arrives_demands (hstands : C.stands context heap value)
    (hcustom : ∀ code, resolved.node.custom ≠ some (.host code))
    (hleads : resolved.node.Leads host (fun _ => good) context) :
    Arrives C.good context heap (demands host recurse resolved value)
      (C.goes context heap value) := by
  unfold demands
  refine .ite (fun _ => .returning (arrives_demand nofun (C.refl hstands))) fun _ => ?_
  refine .foldlM (C.goes context heap value) (fun keyword hkeyword now v hv => ?_) (C.refl hstands)
  have hstands' := C.stays hstands hv
  suffices Arrives C.good context now (keyword resolved v) (C.goes context now v) from
    this.imp fun later w hw => C.trans hstands hv hw
  simp only [keywords, List.mem_cons, List.not_mem_nil, or_false] at hkeyword
  rcases hkeyword with rfl | rfl | rfl | rfl | rfl | rfl | rfl | rfl | rfl
  · exact arrives_type hstands'
  · exact arrives_oneOf hstands'
  · exact arrives_bounds hstands'
  · exact arrives_either hkeeps hstands' hleads
  · exact arrives_schema hkeeps hstands' hleads
  · exact arrives_require hstands'
  · exact arrives_restrict hstands'
  · exact arrives_items hkeeps hstands' hleads
  · exact arrives_custom hstands' hcustom

/-- **A node keeps to a course** if the checks of its parts do. -/
theorem arrives_node {definition : Definition} (hstands : C.stands context heap value)
    (hrefusal : ∀ violation ∈ refusal.violations, C.good violation)
    (hnode : ∀ env keywords env', definition.unfold host maxThunkChain env = .ok keywords env' →
      Definition.Unaided (.node keywords) ∧ keywords.Leads host (fun _ => good) context) :
    Arrives C.good context heap (nodeSparing host C.spared refusal recurse value definition)
      (C.goes context heap value) := by
  refine .afterContext (f := fun c => c.options.policy) (fun _ => rfl) ?_
  have hresolve : Arrives C.good context heap
      (Check.ofForcing (resolve host context.options.policy definition)) fun heap' resolved =>
        heap' = heap ∧ Definition.Unaided (.node resolved.node) ∧
          resolved.node.Leads host (fun _ => good) context := by
    refine .ofForcing fun env resolved env' hresolve => ⟨rfl, ?_⟩
    obtain ⟨keywords, hunfold, rfl⟩ := Definition.unfold_of_resolve hresolve
    exact hnode env keywords env' hunfold
  refine hresolve.bind fun heap' resolved hresolved => ?_
  obtain ⟨rfl, hunaided, hleads⟩ := hresolved
  refine (arrives_supply hstands hrefusal hunaided.1).bind fun now v hv => ?_
  exact (arrives_demands hkeeps (C.stays hstands hv) hunaided.2 hleads).imp
    fun later w hw => C.trans hstands hv hw

end Nodes

/-- **Every check keeps to a course**, also one that spares documents, if no definition has a
default or a transform of the program around the library. -/
theorem keeps_checkSparing (C : Course σ) (host : Host σ) (refusal : ValidationError)
    (hrefusal : ∀ violation ∈ refusal.violations, C.good violation) (depth : Nat) :
    C.Keeps (checkSparing host C.spared refusal depth)
      (Definition.Throughout host Definition.Unaided) := by
  induction depth with
  | zero => exact fun context heap value definition _ _ => .throw rfl
  | succ depth ih =>
    intro context heap value definition hdefinition hstands
    refine .visiting fun _ => ?_
    exact (arrives_node ih (C.visited hstands) hrefusal fun _ _ _ hunfold =>
      hdefinition.leads hunfold _).imp fun _ _ => C.leave

/-- So does the check itself, if no document is spared. -/
theorem keeps_checkWithin (C : Course σ) (host : Host σ) (hspared : ∀ filling, ¬ C.spared filling)
    (depth : Nat) :
    C.Keeps (checkWithin host depth) (Definition.Throughout host Definition.Unaided) := by
  have hkeeps := C.keeps_checkSparing host .exhausted nofun depth
  have hnone : C.spared = fun _ => False := funext fun filling => eq_false (hspared filling)
  rw [hnone] at hkeeps
  intro context heap value definition hdefinition hstands
  rw [← checkSparing_nothing host .exhausted]
  exact hkeeps context heap value definition hdefinition hstands

/-- **A completed check keeps to a course** on which it may begin. -/
theorem check_goes (C : Course σ) {host : Host σ} {options : Options} {definition : Definition}
    {world : World σ} (hdefinition : definition.Throughout host Definition.Unaided)
    (hstands : C.stands (.start options) world.heap value)
    (hunspared : checkSparing host C.spared .exhausted (nestingBound world.heap definition) value
        definition ⟨.start options, world⟩ =
      checkWithin host (nestingBound world.heap definition) value definition
        ⟨.start options, world⟩)
    {outcome : Outcome} (houtcome : (check host options value definition world).1 = .ok outcome) :
    C.goes (.start options) world.heap value (check host options value definition world).2.heap
        outcome.value ∧
      ∀ violation ∈ outcome.violations, C.good violation := by
  have harrives := C.keeps_checkSparing host .exhausted nofun
    (nestingBound world.heap definition) (.start options) world.heap value definition hdefinition
    hstands [] world.env
  change Arrived C.good (.start options) [] (C.goes (.start options) world.heap value)
    (checkSparing host C.spared .exhausted (nestingBound world.heap definition) value definition
      ⟨.start options, world⟩) at harrives
  rw [hunspared] at harrives
  unfold check at houtcome ⊢
  revert harrives houtcome
  generalize checkWithin host (nestingBound world.heap definition) value definition
    ⟨.start options, world⟩ = r
  intro houtcome harrives
  rcases harrives with ⟨hadded, hgoes⟩ | _
  · obtain rfl := Except.ok.inj houtcome
    exact ⟨hgoes, hadded⟩
  · cases houtcome

end Course

end Conform
