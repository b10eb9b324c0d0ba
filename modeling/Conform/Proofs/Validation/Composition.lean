import Conform.Proofs.Definition.Readable
import Conform.Proofs.Validation.Apart
import Conform.Proofs.Validation.Progress

/-!
# A container is checked as its parts are

Where a definition asks nothing of a container but that its parts are as defined, the check
of the container is made up of checks of its parts, each by itself and from the heap at the
beginning.  This holds of trees alone: in a tree no part leads to another or back to the
container, so no check of a part finds anything changed by those before it.

The parts are gone through one place after the other, and the places done hold what their
checks apart have returned.

## Main definitions

* `Composite`: definitions that ask for parts alone, with the places they go through.
* `Heap.Settled`: a place that holds what a check apart has returned.
* `ProgressApart`: how far the places of a container have been gone through.

## Main results

* `Check.yields_settle`, `Check.yields_places`: a place, and all in turn.
* `check_composes`: the check of a container is made up of the checks of its parts.
-/

namespace Conform

variable {σ : Type}

/-! ## Nodes that ask for parts alone -/

/-- A node that asks nothing of a container but that its parts are as defined: the places
that it goes through, each with the definition of what stands there, and the names of the
fields that it does not allow. -/
inductive Composite (policy : Policy) (heap : Heap) :
    Node Definition → Value → List (Accessor × Definition) → List String → Prop where
  | schema {kind : Option TypeName} {strict : Option Bool}
      {fields : List (String × Definition)} {ref : Ref} {map : OrderedMap Value} :
      kind = none ∨ kind = some .object → heap.fetch ref = .object map →
      Composite policy heap { kind, schema := some (.declared fields), strict } (.object ref)
        (fields.map fun field => (.key field.1, field.2))
        (if strict.getD policy.defaultStrict then
          map.keys.filter fun name => !(Entries.keys fields).contains name else [])
  | items {kind : Option TypeName} {strict : Option Bool} {item : Definition} {ref : Ref}
      {items : List Value} :
      kind = none ∨ kind = some .array → heap.fetch ref = .array items →
      Composite policy heap { kind, items := some item, strict } (.array ref)
        ((List.range items.length).map fun i => (.index i, item)) []
  | entries {kind : Option TypeName} {strict : Option Bool} {item : Definition} {ref : Ref}
      {map : OrderedMap Value} :
      kind = none ∨ kind = some .object → heap.fetch ref = .object map →
      Composite policy heap { kind, items := some item, strict } (.object ref)
        (map.keys.map fun name => (.key name, item)) []

namespace Composite

variable {policy : Policy} {heap : Heap} {keywords : Node Definition} {container : Value}
  {places : List (Accessor × Definition)} {names : List String}
  (h : Composite policy heap keywords container places names)
include h

theorem mem_parts {place : Accessor × Definition} (hplace : place ∈ places) :
    place.2 ∈ keywords.parts := by
  cases h with
  | schema _ _ =>
    obtain ⟨field, hfield, rfl⟩ := List.mem_map.1 hplace
    exact Node.mem_parts_of_field rfl hfield
  | items _ _ =>
    obtain ⟨i, -, rfl⟩ := List.mem_map.1 hplace
    exact Node.mem_parts_of_item rfl
  | entries _ _ =>
    obtain ⟨name, -, rfl⟩ := List.mem_map.1 hplace
    exact Node.mem_parts_of_item rfl

theorem nodup (hfields : ∀ fields, keywords.schema = some (.declared fields) →
    (Entries.keys fields).Nodup) : (places.map Prod.fst).Nodup := by
  have hkey : Function.Injective Accessor.key := fun _ _ => Accessor.key.inj
  have hindex : Function.Injective Accessor.index := fun _ _ => Accessor.index.inj
  cases h with
  | schema _ _ =>
    have hnodup := (hfields _ rfl).map hkey
    rw [Entries.keys, List.map_map] at hnodup
    rw [List.map_map]
    exact hnodup
  | items _ _ =>
    rw [List.map_map]
    exact List.nodup_range.map hindex
  | @entries _ _ _ _ map _ _ =>
    rw [List.map_map]
    exact map.nodup.map hkey

theorem exists_opens : ∃ ref contents, heap.Opens container ref contents ∧
    ∀ place ∈ places, contents.Takes place.1 := by
  cases h with
  | schema _ hfetch =>
    refine ⟨_, _, .object hfetch, fun place hplace => ?_⟩
    obtain ⟨field, -, rfl⟩ := List.mem_map.1 hplace
    exact .key
  | items _ hfetch =>
    refine ⟨_, _, .array hfetch, fun place hplace => ?_⟩
    obtain ⟨i, hi, rfl⟩ := List.mem_map.1 hplace
    exact .index (List.mem_range.1 hi)
  | entries _ hfetch =>
    refine ⟨_, _, .object hfetch, fun place hplace => ?_⟩
    obtain ⟨name, -, rfl⟩ := List.mem_map.1 hplace
    exact .key

end Composite

namespace Check

section Demands

variable (host : Host σ) (recurse : Recurse σ) (policy : Policy) {kind : Option TypeName}
  {strict : Option Bool} {ref : Ref}

theorem demands_fields {fields : List (String × Definition)}
    (hkind : kind = none ∨ kind = some .object) :
    demands host recurse (policy.complete { kind, schema := some (.declared fields), strict })
        (.object ref) = (do
      inside ref do
        fields.forM fun entry => field recurse ref entry.1 entry.2
        if strict.getD policy.defaultStrict then undeclared ref (Entries.keys fields) else pure ()
      return .object ref) := by
  have hforced : ofForcing ((Fields.declared fields).resolve host) =
      (pure fields : Check σ (List (String × Definition))) := rfl
  rcases hkind with rfl | rfl <;>
    simp [demands, keywords, type, oneOf, bounds, either, schema, require, restrict, items,
      custom, Policy.complete, withObject, hasType, demand, Value.isAbsent, hforced, Entries.keys]

theorem demands_items {item : Definition} (hkind : kind = none ∨ kind = some .array) :
    demands host recurse (policy.complete { kind, items := some item, strict }) (.array ref) =
      (do
        inside ref do
          let items ← readHeap (·.items ref)
          items.zipIdx.forM fun entry => Check.item recurse ref item entry.1 entry.2
        return .array ref) := by
  rcases hkind with rfl | rfl <;>
    simp [demands, keywords, type, oneOf, bounds, either, schema, require, restrict, items,
      custom, Policy.complete, hasType, demand, Value.isAbsent]

theorem demands_entries {item : Definition} (hkind : kind = none ∨ kind = some .object) :
    demands host recurse (policy.complete { kind, items := some item, strict }) (.object ref) =
      (do
        inside ref do
          let entries ← readHeap fun heap => (heap.fields ref).entries
          entries.forM fun entry => Check.entry recurse ref item entry.1 entry.2
        return .object ref) := by
  rcases hkind with rfl | rfl <;>
    simp [demands, keywords, type, oneOf, bounds, either, schema, require, restrict, items,
      custom, Policy.complete, hasType, demand, Value.isAbsent]

end Demands

end Check

/-! ## One place after the other -/

/-- What stands at a place afterwards is what a check apart has returned; where nothing
stood and nothing came of it, nothing does. -/
inductive Heap.Settled (base after apart : Heap) (container : Value) (accessor : Accessor)
    (returned : Value) : Prop where
  | missing : base.step? container accessor = none → returned = .null →
      after.step? container accessor = none → Settled base after apart container accessor returned
  | held {held : Value} : base.step? container accessor ≠ none ∨ returned ≠ .null →
      after.step? container accessor = some held →
      base.Twins (base.Touchable (base.get container accessor)) after held apart returned →
      Settled base after apart container accessor returned

/-- A place that is settled stays so where it is spared. -/
theorem Heap.Settled.of_spares {base heap after apart : Heap} {container returned : Value}
    {accessor : Accessor} (h : base.Settled heap apart container accessor returned)
    (hspares : base.Spares container accessor heap after) :
    base.Settled after apart container accessor returned := by
  cases h with
  | missing hbase hnull hnone => exact .missing hbase hnull (hspares.step?_eq.trans hnone)
  | held hsome hheld htwins =>
    exact .held hsome (hspares.step?_eq.trans hheld)
      (htwins.of_fetch_eq hspares.size_le hspares.fetch_eq)

/-- A place is settled as its check apart has it. -/
def Heap.SettledAs (base : Heap) (container : Value)
    (apart : Accessor × Definition → Except ValidationError Outcome × World σ) (heap : Heap)
    (place : Accessor × Definition) : Prop :=
  ∃ outcome, (apart place).1 = .ok outcome ∧
    base.Settled heap (apart place).2.heap container place.1 outcome.value

theorem Heap.SettledAs.of_spares {base : Heap} {container : Value}
    {apart : Accessor × Definition → Except ValidationError Outcome × World σ}
    (place : Accessor × Definition) (heap after : Heap)
    (hspares : base.Spares container place.1 heap after)
    (h : base.SettledAs container apart heap place) :
    base.SettledAs container apart after place := by
  obtain ⟨outcome, hok, hsettled⟩ := h
  exact ⟨outcome, hok, hsettled.of_spares hspares⟩

/-- How far the places of a container have been gone through, each as its check apart has it. -/
abbrev ProgressApart (base : Heap) (container : Value) (ref : Ref)
    (apart : Accessor × Definition → Except ValidationError Outcome × World σ)
    (done : List (Accessor × Definition)) (heap : Heap) : Prop :=
  Progress base container ref Prod.fst (base.SettledAs container apart) done heap

/-- Places of a container that are gone through in turn, none of them twice. -/
structure Places (contents : Container) (depth : Nat) (places : List (Accessor × Definition)) :
    Prop where
  nodup : (places.map Prod.fst).Nodup
  takes : ∀ place ∈ places, contents.Takes place.1
  written : ∀ place ∈ places, place.2.Written
  depth_le : ∀ place ∈ places, place.2.depth ≤ depth

/-- What stands at a place of a container checked by itself, called by its path. -/
def checkAt (host : Host σ) (options : Options) (container : Value)
    (place : Accessor × Definition) : Run σ (Except ValidationError Outcome) := fun world =>
  check host (options.into place.1) (world.heap.get container place.1) place.2 world

/-- The context inside of the container that is checked as a whole. -/
def Context.startInside (options : Options) (ref : Ref) : Context :=
  { (Context.start options).visited with ancestors := [ref] }

namespace Check

section Places

variable {host : Host σ} {options : Options} {world : World σ} {container : Value} {ref : Ref}
  {contents : Container} (hopens : world.heap.Opens container ref contents)
  (htree : world.heap.Tree container) (hheld : world.heap.Holds container)
  (hcollecting : options.assert = false) (hroot : options.policy.allowRootDefault = true)
include hopens htree hheld hcollecting hroot

/-- **A place is settled** as it is apart, from any heap in which it has not been done yet. -/
theorem yields_settle {apart : Accessor × Definition → Except ValidationError Outcome × World σ}
    {done : List (Accessor × Definition)} {place : Accessor × Definition} {depth : Nat}
    (hwritten : place.2.Written) (hdepth : place.2.depth ≤ depth)
    (htakes : contents.Takes place.1) (hnew : ∀ other ∈ done, other.1 ≠ place.1)
    (hapart : apart place = check host (options.into place.1)
      (world.heap.get container place.1) place.2 world) :
    Yields (.startInside options ref)
      (fun w => ProgressApart world.heap container ref apart done w.heap)
      (settle (checkWithin host depth) ref place (world.heap.step? container place.1))
      ((apart place).1.map Outcome.violations)
      fun _ w => ProgressApart world.heap container ref apart (done ++ [place]) w.heap := by
  intro V w hprogress
  have hlt := Nat.lt_of_lt_of_le (hheld ref (.root hopens.ref?_eq)) hprogress.size_le
  have hsame := (hprogress.others place.1 hnew).2
  have hpart := yields_part host hcollecting hroot hwritten hdepth (hheld.get place.1)
    hprogress.size_le hsame hlt (htree.not_reachable_root hopens place.1) place.1
  rw [← hapart] at hpart
  -- The part is checked from the heap as it is now, which is named before going on.
  suffices h : Yields (.startInside options ref) (fun other => other.heap = w.heap)
      (settle (checkWithin host depth) ref place (world.heap.step? container place.1))
      ((apart place).1.map Outcome.violations)
      fun _ after => ProgressApart world.heap container ref apart (done ++ [place]) after.heap from
    h V w rfl
  refine Yields.before (Yields.under hpart) fun checked => ?_
  split
  · next hput =>
    have hsome : world.heap.step? container place.1 ≠ none ∨ checked.isAbsent = false := by
      simpa [Option.isSome_iff_ne_none] using hput
    refine Yields.changeHeap ?_
    rintro other ⟨hsize, hframe, outcome, hok, htwins⟩
    refine hprogress.put hopens htree hheld hnew Heap.SettledAs.of_spares hsize hframe htakes
      fun final hfinal hstep hfetch => ⟨outcome, hok, .held (hsome.imp_right ?_) hstep
        (htwins.of_fetch_eq (Nat.le_of_eq hfinal.symm) fun r _ => hfetch r)⟩
    intro hpresent hnull
    rw [htwins.isAbsent_eq, hnull] at hpresent
    cases hpresent
  · next hput =>
    obtain ⟨hnone, habsent⟩ : world.heap.step? container place.1 = none ∧
        checked.isAbsent = true := by simpa using hput
    refine Yields.pure ?_
    rintro other ⟨hsize, hframe, outcome, hok, htwins⟩
    rw [htwins.isAbsent_eq, Value.isAbsent_iff] at habsent
    exact hprogress.skip hopens htree hheld hnew Heap.SettledAs.of_spares hsize hframe hnone
      fun hgone => ⟨outcome, hok, .missing hnone habsent hgone⟩

/-- **The places are gone through** one after the other, each as it is apart. -/
theorem yields_places {apart : Accessor × Definition → Except ValidationError Outcome × World σ}
    {β : Type} (toPlace : β → Accessor × Definition) (step : β → Check σ PUnit) {xs : List β}
    {depth : Nat} (hplaces : Places contents depth (xs.map toPlace))
    (hapart : ∀ place, apart place = check host (options.into place.1)
      (world.heap.get container place.1) place.2 world)
    (hstep : ∀ x ∈ xs, ∀ session : Session σ, session.world.heap.step? container (toPlace x).1 =
        world.heap.step? container (toPlace x).1 → step x session =
      settle (checkWithin host depth) ref (toPlace x)
        (world.heap.step? container (toPlace x).1) session) :
    Yields (.startInside options ref) (fun w => w.heap = world.heap) (xs.forM step)
      (((xs.map toPlace).mapM fun place => (apart place).1.map Outcome.violations).map
        List.flatten)
      fun _ w => ProgressApart world.heap container ref apart (xs.map toPlace) w.heap := by
  intro V w heq
  have hstart : ProgressApart world.heap container ref apart [] w.heap := by
    rw [heq]
    exact .start hopens
  rw [List.mapM_map]
  refine Yields.forM
    (fun done w => ProgressApart world.heap container ref apart (done.map toPlace) w.heap)
    (fun done x rest hxs => ?_) V w hstart
  have hmem : x ∈ xs := by simp [hxs]
  have hplace : toPlace x ∈ xs.map toPlace := List.mem_map_of_mem hmem
  -- No place comes twice, so this one has not been done yet.
  have hnew : ∀ other ∈ done.map toPlace, other.1 ≠ (toPlace x).1 :=
    ne_of_nodup_map hplaces.nodup (by rw [hxs, List.map_append, List.map_cons])
  rintro V w hprogress
  have hsettle := yields_settle hopens htree hheld hcollecting hroot (hplaces.written _ hplace)
    (hplaces.depth_le _ hplace) (hplaces.takes _ hplace) hnew (hapart _) V w hprogress
  rw [hstep x hmem _ (hprogress.others _ hnew).1]
  rwa [List.map_append]

omit htree hheld hroot in
/-- Names that are not declared are told from those that were there before: only declared
ones have been added. -/
theorem yields_undeclared
    {apart : Accessor × Definition → Except ValidationError Outcome × World σ}
    {places : List (Accessor × Definition)} {declared : List String}
    (hdeclared : ∀ place ∈ places, ∀ name, place.1 = .key name → name ∈ declared) :
    Yields (.startInside options ref)
      (fun w : World σ => ProgressApart world.heap container ref apart places w.heap)
      (undeclared ref declared)
      (.ok ((contents.fields.keys.filter fun name => !declared.contains name).map fun name =>
        .ofComplaint (options.root ++ (Accessor.key name).token) .undeclared []))
      fun _ w => ProgressApart world.heap container ref apart places w.heap := by
  have hread : Yields (.startInside options ref)
      (fun w : World σ => ProgressApart world.heap container ref apart places w.heap)
      (readHeap fun heap => (heap.fields ref).keys) (.ok []) fun names w =>
        ProgressApart world.heap container ref apart places w.heap ∧
          (names.filter fun name => !declared.contains name) =
            contents.fields.keys.filter fun name => !declared.contains name := by
    refine Yields.readHeap fun w hprogress => ⟨hprogress, ?_⟩
    rw [← hopens.fetch_eq]
    refine hprogress.keys _ fun place hplace name hname => ?_
    simp [hdeclared place hplace name hname]
  refine hread.after fun names => ?_
  rintro V w ⟨hprogress, hnames⟩
  rw [← hnames]
  exact Yields.forM_demandAt hcollecting declared.contains .undeclared names V w hprogress

/-- **A composite asks for its parts**, each as it is apart, and complains about the names
that it does not allow. -/
theorem exists_yields_demands
    {apart : Accessor × Definition → Except ValidationError Outcome × World σ}
    {keywords : Node Definition} {places : List (Accessor × Definition)} {names : List String}
    {depth : Nat}
    (hcomposite : Composite options.policy world.heap keywords container places names)
    (hplaces : Places contents depth places)
    (hapart : ∀ place, apart place = check host (options.into place.1)
      (world.heap.get container place.1) place.2 world) :
    ∃ body, demands host (checkWithin host depth) (options.policy.complete keywords) container =
        (do inside ref body; return container) ∧
      Yields (.startInside options ref) (fun w => w.heap = world.heap) body
        (((places.mapM fun place => (apart place).1.map Outcome.violations).map List.flatten).map
          (· ++ names.map fun name =>
            .ofComplaint (options.root ++ (Accessor.key name).token) .undeclared []))
        fun _ w => ProgressApart world.heap container ref apart places w.heap := by
  cases hcomposite with
  | @schema kind strict fields ref' map hkind hfetch =>
    obtain rfl := Option.some.inj hopens.ref?_eq
    obtain rfl := hfetch.symm.trans hopens.fetch_eq
    -- A field is read when its turn comes, and it is then what it was at the beginning.
    have hloop := yields_places hopens htree hheld hcollecting hroot
      (fun entry : String × Definition => (.key entry.1, entry.2))
      (fun entry => field (checkWithin host depth) ref' entry.1 entry.2) hplaces hapart
      fun entry _ session hsame => by rw [field_apply, hsame]
    refine ⟨_, demands_fields host _ _ hkind, hloop.append fun _ => ?_⟩
    split
    · refine yields_undeclared hopens hcollecting fun place hplace name hname => ?_
      obtain ⟨entry, hentry, rfl⟩ := List.mem_map.1 hplace
      cases hname
      exact List.mem_map_of_mem hentry
    · exact Yields.pure fun _ h => h
  | @items kind strict item ref' items hkind hfetch =>
    obtain rfl := Option.some.inj hopens.ref?_eq
    obtain rfl := hfetch.symm.trans hopens.fetch_eq
    -- The places are those of the items, which are numbered from the beginning.
    have hnumbered : (List.range items.length).map (fun i => (Accessor.index i, item)) =
        items.zipIdx.map fun entry => (.index entry.2, item) := by
      rw [List.range_eq_range', ← List.zipIdx_map_snd 0 items, List.map_map]
      rfl
    rw [hnumbered] at hplaces ⊢
    have hloop := yields_places hopens htree hheld hcollecting hroot
      (fun entry : Value × Nat => (.index entry.2, item))
      (fun entry => Check.item (checkWithin host depth) ref' item entry.1 entry.2) hplaces hapart
      fun entry hentry session _ => by
        rw [item_eq, hopens.step?_eq, Container.part?, ← List.mem_zipIdx_iff_getElem?.1 hentry]
    have hitems : world.heap.items ref' = items := by
      rw [Heap.items, hfetch]
      rfl
    refine ⟨_, demands_items host _ _ hkind, Yields.reading ?_⟩
    rw [hitems, List.map_nil, map_append_nil]
    exact hloop
  | @entries kind strict item ref' map hkind hfetch =>
    obtain rfl := Option.some.inj hopens.ref?_eq
    obtain rfl := hfetch.symm.trans hopens.fetch_eq
    have hnamed : map.keys.map (fun name => (Accessor.key name, item)) =
        map.entries.map fun entry => (.key entry.1, item) := List.map_map
    rw [hnamed] at hplaces ⊢
    have hloop := yields_places hopens htree hheld hcollecting hroot
      (fun entry : String × Value => (.key entry.1, item))
      (fun entry => Check.entry (checkWithin host depth) ref' item entry.1 entry.2) hplaces hapart
      fun entry hentry session _ => by
        rw [entry_eq, hopens.step?_eq, Container.part?, OrderedMap.get?_of_mem hentry]
    have hfields : world.heap.fields ref' = map := by
      rw [Heap.fields, hfetch]
      rfl
    refine ⟨_, demands_entries host _ _ hkind, Yields.reading ?_⟩
    rw [hfields, List.map_nil, map_append_nil]
    exact hloop

/-- The whole check of a container against a composite. -/
theorem yields_composite
    {apart : Accessor × Definition → Except ValidationError Outcome × World σ}
    {keywords : Node Definition} {places : List (Accessor × Definition)} {names : List String}
    {depth : Nat}
    (hcomposite : Composite options.policy world.heap keywords container places names)
    (hplaces : Places contents depth places)
    (hapart : ∀ place, apart place = check host (options.into place.1)
      (world.heap.get container place.1) place.2 world) :
    Yields (.start options) (fun w => w.heap = world.heap)
      (checkWithin host (depth + 1) container (.node keywords))
      (((places.mapM fun place => (apart place).1.map Outcome.violations).map List.flatten).map
        (· ++ names.map fun name =>
          .ofComplaint (options.root ++ (Accessor.key name).token) .undeclared []))
      fun held w => held = container ∧
        ProgressApart world.heap container ref apart places w.heap := by
  obtain ⟨body, hdemands, hbody⟩ := exists_yields_demands hopens htree hheld hcollecting hroot
    hcomposite hplaces hapart
  have hnode : node host (checkWithin host depth) container (.node keywords) = (do
      let policy ← readContext fun context => context.options.policy
      demands host (checkWithin host depth) (policy.complete keywords) container) := by
    have hforced : ∀ policy, ofForcing (resolve host policy (.node keywords)) =
        (pure (policy.complete keywords) : Check σ Resolved) := fun _ => rfl
    have hsupply : ∀ resolved, supply host resolved container = pure container := by
      intro resolved
      cases hopens <;> rfl
    simp only [node, hforced, hsupply, pure_bind]
  have hpolicy : Yields (Context.start options).visited (fun w : World σ => w.heap = world.heap)
      (readContext fun context => context.options.policy) (.ok []) fun policy w =>
        policy = options.policy ∧ w.heap = world.heap := Yields.readContext fun _ => rfl
  unfold checkWithin
  refine Yields.visiting (show 0 < maxNesting by decide) ?_
  rw [hnode]
  refine hpolicy.after fun policy => ?_
  rintro V w ⟨rfl, heq⟩
  rw [hdemands]
  refine Yields.before (Yields.inside List.not_mem_nil hbody) (fun _ => ?_) V w heq
  exact Yields.pure fun _ hprogress => ⟨rfl, hprogress⟩

end Places

end Check

/-- **The check of a container is made up of the checks of its parts.**  The container is a
tree, and its definition asks for parts alone.  Then the violations are those that each
part has by itself, called by its path, in the order in which the parts are gone through,
and after them a complaint about each field that is not allowed.  If a part by itself comes
to a fault, the whole comes to the first.  Otherwise there stands at every place what the
check of the part by itself has returned, and nothing where nothing was and nothing came
of it. -/
theorem check_composes (host : Host σ) (options : Options) {json : Json}
    {keywords : Node Definition} {container : Value} {places : List (Accessor × Definition)}
    {names : List String} (world : World σ)
    (hread : Definition.ofJson json = .ok (.node keywords)) (hdistinct : json.Distinct)
    (hheld : world.heap.Holds container) (htree : world.heap.Tree container)
    (hcollecting : options.assert = false) (hroot : options.policy.allowRootDefault = true)
    (hcomposite : Composite options.policy world.heap keywords container places names) :
    let apart := fun place => checkAt host options container place world
    let whole := check host options container (.node keywords) world
    whole.1.map Outcome.violations =
        (((places.mapM fun place => (apart place).1.map Outcome.violations).map List.flatten).map
          (· ++ names.map fun name =>
            .ofComplaint (options.root ++ (Accessor.key name).token) .undeclared [])) ∧
      ∀ outcome, whole.1 = .ok outcome → outcome.value = container ∧
        ∀ place ∈ places, ∃ part, (apart place).1 = .ok part ∧
          world.heap.Settled whole.2.heap (apart place).2.heap container place.1 part.value := by
  intro apart whole
  obtain ⟨ref, contents, hopens, htakes⟩ := hcomposite.exists_opens
  have hwritten := Definition.written_ofJson json hread
  obtain ⟨depth, hdepth⟩ := Nat.exists_eq_add_one.2 (Definition.node keywords).depth_pos
  have hplaces : Places contents depth places :=
    { nodup := hcomposite.nodup fun fields => Definition.nodup_fields_ofJson hread hdistinct
      takes := htakes
      written := fun place hplace => hwritten.of_mem_parts (hcomposite.mem_parts hplace)
      depth_le := fun place hplace => by
        have hlt := Definition.depth_lt_of_mem_parts (hcomposite.mem_parts hplace)
        omega }
  have hwhole : whole = Check.outcome
      (checkWithin host (depth + 1) container (.node keywords) ⟨.start options, world⟩) :=
    check_eq_outcome hwritten (Nat.le_of_eq hdepth) options container world
  have hends : Check.Yielded (.start options) [] _ _
      (checkWithin host (depth + 1) container (.node keywords) ⟨.start options, world⟩) :=
    Check.yields_composite hopens htree hheld hcollecting hroot hcomposite hplaces
      (fun place => (rfl : apart place = check host (options.into place.1)
        (world.heap.get container place.1) place.2 world)) [] world rfl
  -- What is left is about the ends of checks, whatever these have been.
  clear_value apart
  rw [hwhole]
  revert hends
  generalize checkWithin host (depth + 1) container (.node keywords) ⟨.start options, world⟩ = r
  generalize (((places.mapM fun place => (apart place).1.map Outcome.violations).map
    List.flatten).map _) = found
  intro hends
  cases hends with
  | error => exact ⟨rfl, nofun⟩
  | ok hpost =>
    obtain ⟨rfl, hprogress⟩ := hpost
    refine ⟨rfl, ?_⟩
    rintro outcome ⟨⟩
    exact ⟨rfl, hprogress.settled⟩

/-- A strict object that lacks a field with a default, has another of the wrong type, and a
third that is not declared. -/
theorem check_composes_strict :
    let json : Json := .object
      [("schema", .object
          [("size", .object [("default", .array [])]), ("name", .string "string")]),
        ("strict", .bool true)]
    let size : Definition := .node { fallback := some (.literal (.array [])) }
    let keywords : Node Definition :=
      { schema := some (.declared [("size", size), ("name", .shorthand .string)]),
        strict := some true }
    let fields : OrderedMap Value := .ofList [("name", .bool true), ("extra", .null)]
    let world : World Unit := ⟨{ containers := #[.object fields] }, ()⟩
    let apart := checkAt default {} (.object 0) (.key "size", size) world
    let whole := check default {} (.object 0) (.node keywords) world
    Definition.ofJson json = .ok (.node keywords) ∧
      whole.1.map Outcome.violations =
        .ok [.ofComplaint "value.name" (.wrongType .string) [],
          .ofComplaint "value.extra" .undeclared []] ∧
      ∃ part, apart.1 = .ok part ∧
        world.heap.Settled whole.2.heap apart.2.heap (.object 0) (.key "size") part.value := by
  intro json size keywords fields world apart
  have hread : Definition.ofJson json = .ok (.node keywords) := rfl
  have hdistinct : json.Distinct := by
    have hsize : Json.Distinct (.object [("default", .array [])]) :=
      .object (by decide) (List.forall_mem_singleton.2 (.array (by simp)))
    have hschema : Json.Distinct
        (.object [("size", .object [("default", .array [])]), ("name", .string "string")]) :=
      .object (by decide)
        (List.forall_mem_cons.2 ⟨hsize, List.forall_mem_singleton.2 (.string _)⟩)
    exact .object (by decide)
      (List.forall_mem_cons.2 ⟨hschema, List.forall_mem_singleton.2 (.bool _)⟩)
  have hopens : world.heap.Opens (.object 0) 0 (.object fields) := .object rfl
  have hflat : ∀ part ∈ (Container.object fields).children, part.ref? = none := by decide
  have htree := Heap.tree_of_flat hopens hflat
  have hheld := Heap.holds_of_flat hopens hflat (by decide)
  have hcomposes := check_composes default {} world hread hdistinct hheld htree rfl rfl
    (.schema (.inl rfl) rfl)
  -- From here on it is the same check, whatever it comes to.
  revert hcomposes
  generalize check default {} (.object 0) (.node keywords) world = checked
  rintro ⟨hviolations, hsettled⟩ whole
  have hfound : whole.1.map Outcome.violations =
      .ok [.ofComplaint "value.name" (.wrongType .string) [],
        .ofComplaint "value.extra" .undeclared []] := hviolations.trans rfl
  obtain ⟨outcome, hends⟩ : ∃ outcome, whole.1 = .ok outcome := by
    cases hends : whole.1 with
    | error fault => rw [hends] at hfound; cases hfound
    | ok outcome => exact ⟨outcome, rfl⟩
  exact ⟨hread, hfound, (hsettled outcome hends).2 _ List.mem_cons_self⟩

end Conform
