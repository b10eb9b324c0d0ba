import Conform.Proofs.Validation.Progress
import Conform.Proofs.Validation.Repetition

/-!
# Keywords that find the same again

Most keywords only look at a value: they give it back, and what they find hangs on what the
value leads to.  The type may put a moment in the place of what encodes it, which encodes
itself.  Two keywords go into the parts of a container, put what comes of them in their
places, and may add fields.  If the checks of the parts find the same again, so do these
keywords, in the container as they have left it: what is put back the second time is what
is there.

## Main definitions

* `Heap.Tended`: what a check has made of a value.
* `Check.Recurs`: checks that find the same again.
* `Check.Done`: a place that holds what its check gives again.

## Main results

* `Check.type_cases`: a value is kept, or a moment takes its place.
* `Check.leaves_places`: going through places for the first time leaves them done.
* `Check.observes_places`: going through places that are done changes nothing.
* `Check.fixes_schema`, `Check.fixes_items`: keywords that go into the parts.
-/

namespace Conform

variable {σ : Type}

/-- What a check has made of a value: all of the result is in the heap, and it leads to
nothing but what the value has led to and what is new.  Everything else is as it was. -/
structure Heap.Tended (base : Heap) (value : Value) (heap : Heap) (result : Value) : Prop where
  size_le : base.size ≤ heap.size
  fetch_eq : ∀ ref, ref < base.size → ¬ base.Reachable value ref → heap.fetch ref = base.fetch ref
  holds : heap.Holds result
  touchable : ∀ ref, heap.Reachable result ref → base.Touchable value ref

namespace Check

variable {context : Context} {world : World σ} {value : Value} {resolved : Resolved}

/-! ## Keywords that only look -/

section Looking

variable (hcollecting : context.asserting = false)
include hcollecting

/-- **The type keeps a value, or a moment takes its place**, and moments encode themselves. -/
theorem type_cases :
    Uniform context (fun _ : World σ => True) (type resolved value) value ∨
      ∃ moment : DateTime, type resolved value = (pure (.dateTime moment) : Check σ Value) ∧
        type resolved (.dateTime moment) = (pure (.dateTime moment) : Check σ Value) := by
  cases hkind : resolved.node.kind with
  | none =>
    simp only [type, hkind]
    exact .inl (.pure value)
  | some kind =>
    -- All other types only ask what the value is.
    by_cases hmoment : kind = .dateTime
    · subst hmoment
      simp only [type, hkind]
      cases hread : moment? value with
      | none => exact .inl ((Uniform.report hcollecting _ _).returning value)
      | some moment => exact .inr ⟨moment, rfl, rfl⟩
    · have htype : type resolved value = (do
          demand (hasType kind value) (.wrongType kind)
          return value : Check σ Value) := by
        unfold type
        rw [hkind]
        cases kind <;> first | rfl | exact absurd rfl hmoment
      rw [htype]
      exact .inl ((Uniform.demand hcollecting _ _).returning value)

theorem uniform_oneOf (heap : Heap) :
    Uniform context (Retaining σ heap value) (oneOf resolved value) value := by
  unfold oneOf
  split
  · exact .pure value
  · next allowed _ =>
    refine .bind (.readHeap (a := allowed.any fun json => value.equalsJson heap json) ?_)
      ((Uniform.demand hcollecting _ _).returning value)
    intro w hw
    simp only [hw.equalsJson_eq]

theorem uniform_bounds (known : World σ → Prop) :
    Uniform context known (bounds resolved value) value := by
  unfold bounds
  split
  · exact .pure _
  · exact (Uniform.forM fun pair _ => .demand hcollecting _ _).returning _
  · exact (Uniform.demand hcollecting _ _).returning _

theorem uniform_withObject {known : World σ → Prop} {m : Ref → Check σ Unit}
    (hm : ∀ ref, value = .object ref → Uniform context known (m ref) ()) :
    Uniform context known (withObject resolved value m) value := by
  unfold withObject
  split
  · next ref => exact (hm ref rfl).returning _
  · exact (Uniform.demand hcollecting _ _).returning value

/-- A condition on whether the fields of the given names are there. -/
theorem uniform_presence (heap : Heap) (names : List String) (condition : Bool → Bool)
    (complaint : Complaint) :
    Uniform context (Retaining σ heap value)
      (withObject resolved value fun ref => names.forM fun name => do
        let present ← hasField ref name
        demandAt (.key name) (condition present) complaint) value := by
  refine uniform_withObject hcollecting fun ref hobject => .forM fun name _ => ?_
  subst hobject
  refine .bind (.readHeap (a := !(heap.fieldOf ref name).isAbsent) fun w hw => ?_)
    (.demandAt hcollecting _ _ _)
  change (!(w.heap.fieldOf ref name).isAbsent) = _
  rw [Heap.fieldOf, Heap.fields, hw ref (.root rfl)]
  rfl

theorem uniform_require (heap : Heap) :
    Uniform context (Retaining σ heap value) (require resolved value) value := by
  unfold require
  split
  · exact .pure value
  · exact uniform_presence hcollecting heap _ id _

theorem uniform_restrict (heap : Heap) :
    Uniform context (Retaining σ heap value) (restrict resolved value) value := by
  unfold restrict
  split
  · exact .pure value
  · exact uniform_presence hcollecting heap _ not _

theorem uniform_undeclared {ref : Ref} (href : value.ref? = some ref) (heap : Heap)
    (declared : List String) :
    Uniform context (Retaining σ heap value) (undeclared ref declared) () := by
  refine .bind (.readHeap (a := (heap.fields ref).keys) fun w hw => ?_)
    (.forM fun _ _ => .demandAt hcollecting _ _ _)
  rw [Heap.fields, hw ref (.root href), ← Heap.fields]

end Looking

/-! ## Keywords that go into the parts -/

/-- What a check against the definition makes of planted values it makes again, and of what
was there it changes nothing that the value does not lead to. -/
def Recurs (recurse : Recurse σ) (definition : Definition) : Prop :=
  ∀ (context : Context) (world : World σ) (value : Value), context.asserting = false →
    world.heap.Planted value →
    Leaves context world (recurse value definition) fun result added after =>
      world.heap.Tended value after.heap result ∧
        Repeats context after.heap (recurse · definition) result added

/-- A place is done when what stands there is a result that its check gives again. -/
structure Done (context : Context) (recurse : Recurse σ) (base : Heap) (container : Value)
    (heap : Heap) (step : (Accessor × Definition) × List Violation) : Prop where
  holds : heap.Holds (heap.get container step.1.1)
  touchable : ∀ r, heap.Reachable (heap.get container step.1.1) r →
    base.Touchable (base.get container step.1.1) r
  repeats : Repeats { context with path := step.1.1 :: context.path } heap
    (recurse · step.1.2) (heap.get container step.1.1) step.2

/-- How far the places of a container have been gone through, each with what its check has
added. -/
abbrev Underway (context : Context) (recurse : Recurse σ) (base : Heap) (container : Value)
    (ref : Ref) (done : List ((Accessor × Definition) × List Violation)) (heap : Heap) : Prop :=
  Progress base container ref (·.1.1) (Done context recurse base container) done heap

section Places

variable {recurse : Recurse σ} {container : Value} {ref : Ref} {contents : Container}
  {base heap : Heap}

/-- A place stays done where it is spared. -/
theorem Done.of_spares (step : (Accessor × Definition) × List Violation) (heap after : Heap)
    (hspares : base.Spares container step.1.1 heap after)
    (h : Done context recurse base container heap step) :
    Done context recurse base container after step := by
  have hget : after.get container step.1.1 = heap.get container step.1.1 :=
    congrArg (Option.getD · Value.null) hspares.step?_eq
  have hretains : heap.Retains (heap.get container step.1.1) after :=
    fun r hreach => hspares.fetch_eq r (h.holds r hreach) (h.touchable r hreach)
  constructor
  · rw [hget]
    exact fun r hreach => Nat.lt_of_lt_of_le (h.holds r (hretains.reachable hreach)) hspares.size_le
  · rw [hget]
    exact fun r hreach => h.touchable r (hretains.reachable hreach)
  · rw [hget]
    exact h.repeats.of_retains hretains

/-- A result that has been put in its place is done, wherever else this has been changed. -/
theorem Done.of_tended {place : Accessor × Definition} {added : List Violation}
    {checked : Value} {before after final : Heap}
    (hretains : base.Retains (base.get container place.1) before) (hsize : base.size ≤ before.size)
    (htended : before.Tended (base.get container place.1) after checked)
    (hrepeats : Repeats { context with path := place.1 :: context.path } after
      (recurse · place.2) checked added)
    (hget : final.get container place.1 = checked) (hfinal : after.size ≤ final.size)
    (hfetch : ∀ r, base.Touchable (base.get container place.1) r →
      final.fetch r = after.fetch r) :
    Done context recurse base container final (place, added) := by
  have htouchable : ∀ r, after.Reachable checked r →
      base.Touchable (base.get container place.1) r := fun r hreach =>
    (htended.touchable r hreach).imp hretains.reachable (Nat.le_trans hsize)
  have hkept : after.Retains checked final := fun r hreach => hfetch r (htouchable r hreach)
  subst hget
  exact ⟨fun r hreach => Nat.lt_of_lt_of_le (htended.holds r (hkept.reachable hreach)) hfinal,
    fun r hreach => htouchable r (hkept.reachable hreach), hrepeats.of_retains hkept⟩

section Once

variable (hopens : world.heap.Opens container ref contents)
  (hplanted : world.heap.Planted container) (hcollecting : context.asserting = false)
include hopens hplanted hcollecting

/-- **A place is done** when it has been settled, from any world in which it has not been done
yet. -/
theorem leaves_settle {done : List ((Accessor × Definition) × List Violation)}
    {place : Accessor × Definition} {now : World σ} (hrecurs : Recurs recurse place.2)
    (htakes : contents.Takes place.1) (hnew : ∀ other ∈ done, other.1.1 ≠ place.1)
    (hunderway : Underway context recurse world.heap container ref done now.heap) :
    Leaves context now (settle recurse ref place (world.heap.step? container place.1))
      fun _ added after => Underway context recurse world.heap container ref
        (done ++ [(place, added)]) after.heap := by
  -- Only other places have been gone through, so the part is still planted.
  have hretains : world.heap.Retains (world.heap.get container place.1) now.heap :=
    (hunderway.others place.1 hnew).2
  have hpart := (hplanted.get hopens place.1).of_retains hretains hunderway.size_le
  refine Leaves.bind (.under (hrecurs _ now _ hcollecting hpart)) ?_
  rintro checked added after ⟨htended, hrepeats⟩
  have hframe : ∀ r, r < now.heap.size →
      ¬ world.heap.Reachable (world.heap.get container place.1) r →
      after.heap.fetch r = now.heap.fetch r :=
    fun r hlt hout => htended.fetch_eq r hlt fun hreach => hout (hretains.reachable hreach)
  split
  · refine .changeHeap ?_
    rw [List.append_nil]
    refine hunderway.put hopens hplanted.tree hplanted.holds hnew Done.of_spares htended.size_le
      hframe htakes fun final hsize hstep hfetch => ?_
    refine .of_tended hretains hunderway.size_le htended hrepeats ?_ (Nat.le_of_eq hsize.symm)
      hfetch
    exact congrArg (Option.getD · Value.null) hstep
  · next hput =>
    obtain ⟨hnone, habsent⟩ : world.heap.step? container place.1 = none ∧
        checked.isAbsent = true := by simpa using hput
    refine .of_observes (.pure ()) ?_
    rw [List.append_nil]
    refine hunderway.skip hopens hplanted.tree hplanted.holds hnew Done.of_spares htended.size_le
      hframe hnone fun hgone => ?_
    refine .of_tended hretains hunderway.size_le htended hrepeats ?_ (Nat.le_refl _) fun _ _ => rfl
    rw [Value.isAbsent_iff] at habsent
    rw [habsent]
    exact congrArg (Option.getD · Value.null) hgone

/-- **All places are done** when they have been gone through. -/
theorem leaves_places {β : Type} (toPlace : β → Accessor × Definition) {step : β → Check σ PUnit}
    {xs : List β} (hnodup : ((xs.map toPlace).map Prod.fst).Nodup)
    (htakes : ∀ x ∈ xs, contents.Takes (toPlace x).1)
    (hrecurs : ∀ x ∈ xs, Recurs recurse (toPlace x).2)
    (hstep : ∀ x ∈ xs, ∀ session : Session σ, session.world.heap.step? container (toPlace x).1 =
        world.heap.step? container (toPlace x).1 → step x session =
      settle recurse ref (toPlace x) (world.heap.step? container (toPlace x).1) session) :
    Leaves context world (xs.forM step) fun _ added after => ∃ done,
      done.map Prod.fst = xs.map toPlace ∧ added = (done.map Prod.snd).flatten ∧
        Underway context recurse world.heap container ref done after.heap := by
  refine (Leaves.forM (fun done now => Underway context recurse world.heap container ref
    (done.map fun x => (toPlace x.1, x.2)) now.heap) (.start hopens)
    fun done x rest hxs now hunderway => ?_).imp ?_
  · have hmem : x ∈ xs := by
      rw [hxs]
      exact List.mem_append_right _ (List.mem_cons_self ..)
    -- No place comes twice, so this one has not been done yet.
    have hnew : ∀ other ∈ done.map fun x => (toPlace x.1, x.2), other.1.1 ≠ (toPlace x).1 := by
      intro other hother
      obtain ⟨d, hd, rfl⟩ := List.mem_map.1 hother
      rw [List.map_map] at hnodup
      exact ne_of_nodup_map hnodup hxs d.1 (List.mem_map_of_mem hd)
    simp only [List.map_append, List.map_cons, List.map_nil]
    exact (leaves_settle hopens hplanted hcollecting (hrecurs x hmem) (htakes x hmem) hnew
      hunderway).congr fun V => hstep x hmem _ (hunderway.others _ hnew).1
  · rintro _ _ after ⟨done, rfl, rfl, hunderway⟩
    refine ⟨done.map fun x => (toPlace x.1, x.2), ?_, ?_, hunderway⟩
    · rw [List.map_map, List.map_map]
      rfl
    · rw [List.map_map]
      rfl

end Once

section Again

variable (hopens : heap.Opens container ref contents)
  (hretains : heap.Retains container world.heap)
include hopens hretains

/-- **A place that is done** is settled again without any change. -/
theorem observes_settle {place : Accessor × Definition} {added : List Violation}
    (hdone : Done context recurse base container heap (place, added)) :
    Observes context world (settle recurse ref place (world.heap.step? container place.1)) ()
      added := by
  have hsame := hretains ref (.root hopens.ref?_eq)
  have hstep : world.heap.step? container place.1 = heap.step? container place.1 :=
    ((hopens.of_fetch_eq hsame).step?_eq place.1).trans (hopens.step?_eq place.1).symm
  have hcheck := hdone.repeats world (hretains.get hopens place.1)
  rw [← List.append_nil added, hstep]
  refine Observes.bind (Yields.under hcheck) ?_
  split
  · next hput =>
    refine .changeHeap ?_
    -- What is put back is what is there.
    cases hpart : heap.step? container place.1 with
    | none => simp [Heap.get, hpart, Value.isAbsent] at hput
    | some part =>
      have hput : (world.heap.fetch ref).put place.1 part = world.heap.fetch ref := by
        rw [hsame, hopens.fetch_eq]
        exact Container.put_self ((hopens.step?_eq place.1).symm.trans hpart)
      rw [Heap.get, hpart, Option.getD_some, hput, Heap.store_fetch]
  · exact .pure ()

/-- **Places that are done** are gone through again without any change. -/
theorem observes_places {done : List ((Accessor × Definition) × List Violation)}
    (hdone : ∀ step ∈ done, Done context recurse base container heap step) {β : Type}
    (toPlace : β → Accessor × Definition) {step : β → Check σ PUnit} {xs : List β}
    (hxs : done.map Prod.fst = xs.map toPlace)
    (hstep : ∀ x ∈ xs, ∀ V, step x ⟨context.holding V, world⟩ =
      settle recurse ref (toPlace x) (world.heap.step? container (toPlace x).1)
        ⟨context.holding V, world⟩) :
    Observes context world (xs.forM step) () (done.map Prod.snd).flatten := by
  induction xs generalizing done with
  | nil =>
    obtain rfl := List.map_eq_nil_iff.1 hxs
    exact .pure ()
  | cons x xs ih =>
    obtain ⟨⟨place, added⟩, rest, rfl, hplace, hrest⟩ := List.map_eq_cons_iff.1 hxs
    obtain ⟨hfirst, hothers⟩ := List.forall_mem_cons.1 hdone
    obtain ⟨hx, hlater⟩ := List.forall_mem_cons.1 hstep
    obtain rfl : place = toPlace x := hplace
    exact ((observes_settle hopens hretains hfirst).congr hx).bind (ih hothers hrest hlater)

end Again

/-- A value of which all places have been done is in the heap. -/
theorem holds_of_underway {done : List ((Accessor × Definition) × List Violation)}
    (hopens : base.Opens container ref contents) (hheld : base.Holds container)
    (h : Underway context recurse base container ref done heap) : heap.Holds container := by
  intro r hreach
  rcases h.opens.reachable_cases hreach with rfl | ⟨accessor, part, hpart, hreach⟩
  · exact Nat.lt_of_lt_of_le (hheld _ (.root hopens.ref?_eq)) h.size_le
  · have hstep : heap.step? container accessor = some part := (h.opens.step?_eq _).trans hpart
    by_cases hdone : ∃ step ∈ done, step.1.1 = accessor
    · obtain ⟨step, hmem, rfl⟩ := hdone
      refine (h.settled step hmem).holds r ?_
      rwa [Heap.get, hstep]
    · -- What has not been gone through is as it was.
      obtain ⟨hsame, hretains⟩ :=
        h.others accessor fun step hmem heq => hdone ⟨step, hmem, heq⟩
      have hget : base.get container accessor = part := by
        rw [Heap.get, ← hsame, hstep, Option.getD_some]
      rw [← hget] at hreach
      have hbase := Heap.Retains.reachable hretains hreach
      exact Nat.lt_of_lt_of_le (hheld.get accessor r hbase) h.size_le

end Places

section Parts

variable {host : Host σ} {recurse : Recurse σ} (hcollecting : context.asserting = false)
  (hplanted : world.heap.Planted value)
include hcollecting hplanted

theorem fixes_withObject {m : Ref → Check σ Unit}
    (hm : ∀ ref, value = .object ref → Fixes context world value (m ref) ()) :
    Fixes context world value (withObject resolved value m) value := by
  unfold withObject
  split
  · next ref => exact (hm ref rfl).returning _
  · exact .of_uniform hplanted.holds ((Uniform.demand hcollecting _ _).returning _)

/-- Fields are gone through again without any change. -/
theorem fixes_fields {ref : Ref} (hobject : value = .object ref)
    {fields : List (String × Definition)} (hnodup : (Entries.keys fields).Nodup)
    (hrecurs : ∀ field ∈ fields, Recurs recurse field.2) :
    Fixes context world value
      (fields.forM fun entry => field recurse ref entry.1 entry.2) () := by
  subst hobject
  obtain ⟨contents, hopens⟩ := hplanted.opens ref rfl
  let toPlace : String × Definition → Accessor × Definition := fun entry => (.key entry.1, entry.2)
  have hplaces : ((fields.map toPlace).map Prod.fst).Nodup := by
    have hkeys := hnodup.map fun _ _ => Accessor.key.inj
    rw [Entries.keys, List.map_map] at hkeys
    rwa [List.map_map]
  have htakes : ∀ entry ∈ fields, contents.Takes (toPlace entry).1 := by
    obtain ⟨hfetch⟩ := hopens
    exact fun _ _ => .key
  refine (leaves_places hopens hplanted hcollecting toPlace hplaces htakes hrecurs
    fun entry _ session hsame => by rw [field_apply, hsame]).imp ?_
  rintro _ _ after ⟨done, hdone, rfl, hunderway⟩
  refine ⟨rfl, holds_of_underway hopens hplanted.holds hunderway, fun later hlater => ?_⟩
  exact observes_places hunderway.opens hlater hunderway.settled toPlace hdone
    fun entry _ V => field_apply ..

/-- **The fields of an object** are checked again without any change. -/
theorem fixes_schema {fields : List (String × Definition)}
    (hschema : resolved.node.schema = some (.declared fields))
    (hnodup : (Entries.keys fields).Nodup) (hrecurs : ∀ field ∈ fields, Recurs recurse field.2) :
    Fixes context world value (schema host recurse resolved value) value := by
  have hforced : ofForcing ((Fields.declared fields).resolve host) =
      (pure fields : Check σ (List (String × Definition))) := rfl
  simp only [schema, hschema, hforced, pure_bind]
  refine fixes_withObject hcollecting hplanted fun ref hobject => ?_
  let inner : Context := { context with ancestors := context.originOf ref :: context.ancestors }
  have hinner : inner.asserting = false := hcollecting
  refine .inside hcollecting hplanted.holds (Fixes.bind_uniform (a := ())
    (fixes_fields hinner hplanted hobject hnodup hrecurs) fun heap => ?_)
  split
  · exact uniform_undeclared hinner (congrArg Value.ref? hobject) heap _
  · exact .pure ()

/-- All parts that there are, are gone through again without any change: the container has
the same places as before. -/
theorem fixes_parts {ref : Ref} {contents : Container}
    (hopens : world.heap.Opens value ref contents) {item : Definition}
    (hrecurs : Recurs recurse item) {β γ : Type} (read : Heap → γ) (list : γ → List β)
    (toPlace : β → Accessor × Definition) (step : β → Check σ PUnit)
    (hplaces : ∀ (heap : Heap) contents, heap.Opens value ref contents →
      (list (read heap)).map toPlace = contents.accessors.map (·, item) ∧
        ∀ x ∈ list (read heap), step x =
          settle recurse ref (toPlace x) (heap.step? value (toPlace x).1)) :
    Fixes context world value (do let parts ← readHeap read; (list parts).forM step) () := by
  obtain ⟨hlist, hstep⟩ := hplaces world.heap contents hopens
  have hmem : ∀ place ∈ (list (read world.heap)).map toPlace,
      place.1 ∈ contents.accessors ∧ place.2 = item := by
    rw [hlist]
    intro place hplace
    obtain ⟨accessor, haccessor, rfl⟩ := List.mem_map.1 hplace
    exact ⟨haccessor, rfl⟩
  have hnodup : (((list (read world.heap)).map toPlace).map Prod.fst).Nodup := by
    rw [hlist, List.map_map]
    exact (List.map_id' _).symm ▸ contents.nodup_accessors
  refine .after (.readHeap read) ((leaves_places hopens hplanted hcollecting toPlace hnodup
    (fun x hx => Container.takes_of_mem_accessors (hmem _ (List.mem_map_of_mem hx)).1)
    (fun x hx => (hmem _ (List.mem_map_of_mem hx)).2 ▸ hrecurs)
    fun x hx session _ => by rw [hstep x hx]).imp ?_)
  rintro _ _ after ⟨done, hdone, rfl, hunderway⟩
  refine ⟨rfl, holds_of_underway hopens hplanted.holds hunderway, fun later hlater => ?_⟩
  -- Results have been put where parts had been, so there are no other places now.
  have hsame : (after.heap.fetch ref).accessors = contents.accessors := by
    rw [hunderway.accessors fun place hplace => ?_, hopens.fetch_eq]
    rw [hopens.fetch_eq]
    exact (hmem place.1 (hdone ▸ List.mem_map_of_mem hplace)).1
  obtain ⟨hlist', hstep'⟩ := hplaces later.heap _
    (hunderway.opens.of_fetch_eq (hlater ref (.root hopens.ref?_eq)))
  refine (Observes.readHeap read).after (observes_places hunderway.opens hlater hunderway.settled
    toPlace ?_ fun x hx V => by rw [hstep' x hx])
  rw [hdone, hlist, hlist', hsame]

/-- **The items of an array and the entries of an object** are checked again without any
change. -/
theorem fixes_items {item : Definition} (hitems : resolved.node.items = some item)
    (hrecurs : Recurs recurse item) :
    Fixes context world value (items recurse resolved value) value := by
  have hinner : ∀ ref, Context.asserting
      { context with ancestors := context.originOf ref :: context.ancestors } = false :=
    fun _ => hcollecting
  cases value with
  | array ref =>
    obtain ⟨contents, hopens⟩ := hplanted.opens ref rfl
    simp only [items, hitems]
    refine (Fixes.inside hcollecting hplanted.holds (fixes_parts (hinner ref) hplanted hopens
      hrecurs (·.items ref) List.zipIdx (fun entry => (.index entry.2, item)) _
      fun heap contents hopens => ⟨?_, ?_⟩)).returning _
    · obtain @⟨_, xs, hfetch⟩ := hopens
      rw [Heap.items, hfetch, Container.items, Container.accessors, List.range_eq_range',
        ← List.zipIdx_map_snd 0 xs, List.map_map, List.map_map]
      rfl
    · rintro ⟨part, i⟩ hmem
      rw [item_eq, ← List.mem_zipIdx_iff_getElem?.1 hmem]
      rfl
  | object ref =>
    obtain ⟨contents, hopens⟩ := hplanted.opens ref rfl
    simp only [items, hitems]
    refine (Fixes.inside hcollecting hplanted.holds (fixes_parts (hinner ref) hplanted hopens
      hrecurs (fun heap => (heap.fields ref).entries) id (fun entry => (.key entry.1, item)) _
      fun heap contents hopens => ⟨?_, ?_⟩)).returning _
    · obtain _ | @⟨_, map, hfetch⟩ := hopens
      rw [Heap.fields, hfetch, Container.fields, Container.accessors, OrderedMap.keys,
        Entries.keys, List.map_map, List.map_map]
      rfl
    · rintro ⟨name, part⟩ hmem
      rw [entry_eq, ← OrderedMap.get?_of_mem hmem]
      rfl
  | _ =>
    simp only [items, hitems]
    exact .of_uniform hplanted.holds ((Uniform.report hcollecting _ _).returning _)

end Parts

end Check

end Conform
