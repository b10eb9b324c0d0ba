import Conform.Proofs.Validation.Course

/-!
# The documents of a check

A check fills in documents one after the other, and the containers of each take the next places
of a heap that never gets smaller.  So the documents that a check fills in can be listed: the
check that spares some of them is the check if none of these is in the list, and stops with the
refusal if one is; and no container is made by two of the list.

The list is put together along the way.  A step that goes on to a part lists what the check of
the part fills in, and the other steps fill in nothing, if no default is a thunk and no
transform comes from the program around the library.

## Main definitions

* `Filling.Spaced`: fillings that make containers in a stretch of the heap, none of them twice.
* `Course.growing`, `Check.Grows`: what never makes the heap smaller.
* `Check.Lists`, `Check.Listable`: the fillings of a part of a check.

## Main results

* `Check.Listable.node`: a node's fillings can be listed if those of its parts can.
* `listable_checkWithin`: the fillings of every check can be listed.
* `exists_fillings`: the fillings of a completed check.
-/

namespace Conform

variable {σ α β : Type}

/-! ## Fillings one after the other -/

/-- The fillings make containers in a stretch of the heap, and none of them is made twice. -/
structure Filling.Spaced (start : Nat) (fillings : List (Filling σ)) (stop : Nat) : Prop where
  le : start ≤ stop
  within : ∀ filling ∈ fillings, ∀ ref, filling.Creates ref → start ≤ ref ∧ ref < stop
  apart : fillings.Pairwise fun f g => ∀ ref, f.Creates ref → ¬ g.Creates ref

namespace Filling.Spaced

variable {start middle stop : Nat} {fillings more : List (Filling σ)}

theorem nil (hle : start ≤ stop) : Spaced start ([] : List (Filling σ)) stop :=
  ⟨hle, nofun, .nil⟩

/-- A document fills the stretch that its containers take. -/
theorem single (filling : Filling σ) :
    Spaced filling.session.world.heap.size [filling]
      (Value.ofJson filling.json filling.session.world.heap).2.size := by
  refine ⟨(Heap.Gains.ofJson _ _).size_le, fun other hmem ref hcreates => ?_,
    List.pairwise_singleton _ _⟩
  obtain rfl := List.mem_singleton.1 hmem
  exact hcreates

theorem append (h : Spaced start fillings middle) (h' : Spaced middle more stop) :
    Spaced start (fillings ++ more) stop where
  le := Nat.le_trans h.le h'.le
  within := by
    intro filling hmem ref hcreates
    rcases List.mem_append.1 hmem with hmem | hmem
    · have hwithin := h.within filling hmem ref hcreates
      exact ⟨hwithin.1, Nat.lt_of_lt_of_le hwithin.2 h'.le⟩
    · have hwithin := h'.within filling hmem ref hcreates
      exact ⟨Nat.le_trans h.le hwithin.1, hwithin.2⟩
  apart := List.pairwise_append.2 ⟨h.apart, h'.apart, fun f hf g hg ref hcreates hcreates' =>
    Nat.not_lt.2 (h'.within g hg ref hcreates').1 (h.within f hf ref hcreates).2⟩

/-- **No container is made by two fillings.** -/
theorem eq_of_creates (h : Spaced start fillings stop) {f g : Filling σ} (hf : f ∈ fillings)
    (hg : g ∈ fillings) {ref : Ref} (hcreates : f.Creates ref) (hcreates' : g.Creates ref) :
    f = g := by
  by_contra hne
  have hsymm : Std.Symm fun f g : Filling σ => ∀ ref, f.Creates ref → ¬ g.Creates ref :=
    ⟨fun _ _ hapart ref hg hf => hapart ref hf hg⟩
  exact h.apart.forall hf hg hne ref hcreates hcreates'

end Filling.Spaced

/-! ## Steps that fill in nothing -/

/-- The course of a heap that gets no smaller. -/
def Course.growing (σ : Type) : Course σ where
  good := fun _ => True
  spared := fun _ => False
  stands := fun _ _ _ => True
  goes := fun _ heap _ heap' _ => heap.size ≤ heap'.size
  plain := fun _ _ _ => trivial
  none := fun _ _ _ => trivial
  cycle := fun _ _ _ _ => trivial
  refl := fun _ => Nat.le_refl _
  scalar := fun _ => Nat.le_refl _
  trans := fun _ => Nat.le_trans
  stays := fun _ _ => trivial
  visited := id
  leave := id
  fill := fun _ _ => (Heap.Gains.ofJson _ _).size_le
  entered := fun _ _ _ _ _ => trivial
  skip := fun _ _ => Nat.le_trans
  put := fun _ _ h h' => by
    rw [Heap.size_put]
    exact Nat.le_trans h h'
  fork := id
  back := fun _ h => Nat.le_trans (Heap.Gains.copy _ _).size_le h

namespace Check

/-- A part of a check after which the heap is no smaller than before. -/
def Grows (m : Check σ α) : Prop :=
  ∀ session a after, m session = .ok a after →
    session.world.heap.size ≤ after.world.heap.size

/-- Where a part of a check arrives, it arrives with as large a heap. -/
theorem Grows.of_arrives {m : Check σ α} (h : ∀ context heap,
    Arrives (fun _ => True) context heap m fun heap' _ => heap.size ≤ heap'.size) : Grows m :=
  fun session _ _ hok => (h session.context session.world.heap).of_ok hok

/-- Where a part of a check keeps to the course of a growing heap. -/
theorem Grows.of_course {m : Check σ Value} {value : Value} (h : ∀ context heap,
    Arrives (Course.growing σ).good context heap m ((Course.growing σ).goes context heap value)) :
    Grows m :=
  .of_arrives h

theorem Grows.ite {c : Prop} [Decidable c] {m m' : Check σ α} (h : Grows m) (h' : Grows m') :
    Grows (if c then m else m') := by
  split
  · exact h
  · exact h'

/-- A part of a check that leaves the heap alone. -/
theorem Grows.of_eq {m : Check σ α}
    (h : ∀ session a after, m session = .ok a after → after.world.heap = session.world.heap) :
    Grows m := by
  intro session a after hok
  rw [h session a after hok]

theorem grows_pure (a : α) : Grows (pure a : Check σ α) := .of_eq (by rintro session _ _ ⟨⟩; rfl)

theorem grows_throw (fault : ValidationError) : Grows (throw fault : Check σ α) := nofun

theorem grows_readHeap (f : Heap → α) : Grows (readHeap f : Check σ α) :=
  .of_eq (by rintro session _ _ ⟨⟩; rfl)

theorem grows_readContext (f : Context → α) : Grows (readContext f : Check σ α) :=
  .of_eq (by rintro session _ _ ⟨⟩; rfl)

theorem grows_insertField (ref : Ref) (name : String) (value : Value) :
    Grows (changeHeap (·.insertField ref name value) : Check σ Unit) :=
  .of_arrives fun _ heap => .changeHeap <| by rw [Heap.insertField_eq_put, Heap.size_put]

theorem grows_setItem (ref : Ref) (i : Nat) (value : Value) :
    Grows (changeHeap (·.setItem ref i value) : Check σ Unit) :=
  .of_arrives fun _ heap => .changeHeap <| by rw [Heap.setItem_eq_put, Heap.size_put]

theorem grows_ofForcing (m : Forcing σ α) : Grows (Check.ofForcing m) :=
  .of_arrives fun _ _ => .ofForcing fun _ _ _ _ => Nat.le_refl _

theorem grows_report (complaint : Complaint) (inner : List (List Violation)) :
    Grows (report complaint inner : Check σ Unit) :=
  .of_arrives fun _ _ => .report trivial (Nat.le_refl _)

theorem grows_demand (holds : Bool) (complaint : Complaint) :
    Grows (demand holds complaint : Check σ Unit) :=
  .of_arrives fun _ _ => .demand trivial (Nat.le_refl _)

/-- A copy is added to the heap. -/
theorem grows_copy (value : Value) :
    Grows (ofRun (Run.ofHeap value.copyWithOrigins) : Check σ (Value × List (Ref × Ref))) :=
  .of_arrives fun _ _ => .ofRun fun _ => (Heap.Gains.copy _ _).size_le

/-! ## Lists of fillings -/

/-- A part of a check, given the documents that are to be spared and the refusal with which it
stops instead. -/
abbrev Sparing (σ α : Type) := (Filling σ → Prop) → ValidationError → Check σ α

/-- The fillings of a part of a check that begins in a session: what they are shows in what
becomes of the part when some documents are spared. -/
structure Lists (fillings : List (Filling σ)) (plain : Check σ α) (sparing : Sparing σ α)
    (session : Session σ) : Prop where
  same : ∀ spared refusal, (∀ filling ∈ fillings, ¬ spared filling) →
    sparing spared refusal session = plain session
  refused : ∀ spared refusal, ∀ filling ∈ fillings, spared filling →
    ∃ after, sparing spared refusal session = .error refusal after
  spaced : ∀ a after, plain session = .ok a after →
    Filling.Spaced session.world.heap.size fillings after.world.heap.size

/-- Wherever the part of a check begins, its fillings can be listed. -/
def Listable (plain : Check σ α) (sparing : Sparing σ α) : Prop :=
  ∀ session, ∃ fillings, Lists fillings plain sparing session

namespace Lists

variable {first second : List (Filling σ)} {plain : Check σ α} {sparing : Sparing σ α}
  {f : α → Check σ β} {session next : Session σ} (h : Lists first plain sparing session)
include h

/-- Where the first step is refused, so are both. -/
theorem refused_bind {spared : Filling σ → Prop} {refusal : ValidationError}
    {filling : Filling σ} (hmem : filling ∈ first) (hspared : spared filling) :
    ∃ after, (sparing spared refusal >>= f) session = .error refusal after := by
  obtain ⟨stopped, hstopped⟩ := h.refused spared refusal filling hmem hspared
  exact ⟨stopped, by simp only [Bind.bind, EStateM.bind, hstopped]⟩

/-- Where the first step ends with a fault, the second fills in nothing. -/
theorem bind_error {sparingNext : α → Sparing σ β} {fault : ValidationError}
    (hplain : plain session = .error fault next) :
    Lists first (plain >>= f)
      (fun spared refusal => sparing spared refusal >>= (sparingNext · spared refusal))
      session := by
  refine ⟨fun spared refusal hspared => ?_,
    fun spared refusal filling hmem hspared => h.refused_bind hmem hspared, fun a after hok => ?_⟩
  · simp only [Bind.bind, EStateM.bind, h.same spared refusal hspared, hplain]
  · simp only [Bind.bind, EStateM.bind, hplain] at hok
    cases hok

/-- Where it is completed, the second goes on from there. -/
theorem bind_ok {sparingNext : α → Sparing σ β} {a : α} (hplain : plain session = .ok a next)
    (h' : Lists second (f a) (sparingNext a) next) :
    Lists (first ++ second) (plain >>= f)
      (fun spared refusal => sparing spared refusal >>= (sparingNext · spared refusal))
      session := by
  refine ⟨fun spared refusal hspared => ?_, fun spared refusal filling hmem hspared => ?_,
    fun b after hok => ?_⟩
  · have hnone := List.forall_mem_append.1 hspared
    simp only [Bind.bind, EStateM.bind, h.same spared refusal hnone.1, hplain,
      h'.same spared refusal hnone.2]
  · -- The first step may stop before the second comes to its document.
    by_cases hmet : ∃ filling ∈ first, spared filling
    · obtain ⟨filling, hmem, hspared⟩ := hmet
      exact h.refused_bind hmem hspared
    · have hnone : ∀ filling ∈ first, ¬ spared filling := fun filling hmem hspared =>
        hmet ⟨filling, hmem, hspared⟩
      have hmem := (List.mem_append.1 hmem).resolve_left fun hmem => hnone filling hmem hspared
      obtain ⟨stopped, hstopped⟩ := h'.refused spared refusal filling hmem hspared
      exact ⟨stopped, by
        simp only [Bind.bind, EStateM.bind, h.same spared refusal hnone, hplain, hstopped]⟩
  · simp only [Bind.bind, EStateM.bind, hplain] at hok
    exact (h.spaced a next hplain).append (h'.spaced b after hok)

end Lists

namespace Listable

variable {plain : Check σ α} {sparing : Sparing σ α}

/-- A step that spares nothing, because it fills in nothing. -/
theorem of_grows (h : Grows plain) : Listable plain fun _ _ => plain := fun session =>
  ⟨[], fun _ _ _ => rfl, nofun, fun a after hok => .nil (h session a after hok)⟩

/-- **Steps in sequence** fill in what the one and then the other fills in. -/
theorem bind {f : α → Check σ β} {sparingNext : α → Sparing σ β} (h : Listable plain sparing)
    (hf : ∀ session a after, plain session = .ok a after → Listable (f a) (sparingNext a)) :
    Listable (plain >>= f) fun spared refusal =>
      sparing spared refusal >>= (sparingNext · spared refusal) := by
  intro session
  obtain ⟨first, hfirst⟩ := h session
  cases hplain : plain session with
  | error fault next => exact ⟨first, hfirst.bind_error hplain⟩
  | ok a next =>
    obtain ⟨second, hsecond⟩ := hf session a next hplain next
    exact ⟨first ++ second, hfirst.bind_ok hplain hsecond⟩

/-- What comes after a step that fills in nothing. -/
theorem after {m : Check σ α} {f : α → Check σ β} {sparingNext : α → Sparing σ β}
    (hm : Grows m) (hf : ∀ a, Listable (f a) (sparingNext a)) :
    Listable (m >>= f) fun spared refusal => m >>= (sparingNext · spared refusal) :=
  bind (of_grows hm) fun _ a _ _ => hf a

/-- What comes before a step that fills in nothing. -/
theorem before {f : α → Check σ β} (h : Listable plain sparing) (hf : ∀ a, Grows (f a)) :
    Listable (plain >>= f) fun spared refusal => sparing spared refusal >>= f :=
  bind h fun _ a _ _ => of_grows (hf a)

theorem ite {c : Prop} [Decidable c] {plain' : Check σ α}
    {sparing' : Sparing σ α} (h : Listable plain sparing) (h' : Listable plain' sparing') :
    Listable (if c then plain else plain') fun spared refusal =>
      if c then sparing spared refusal else sparing' spared refusal := by
  by_cases hc : c
  · simp only [if_pos hc]
    exact h
  · simp only [if_neg hc]
    exact h'

theorem forM {f : β → Check σ PUnit} {sparing : β → Sparing σ PUnit} {xs : List β}
    (h : ∀ x ∈ xs, Listable (f x) (sparing x)) :
    Listable (xs.forM f) fun spared refusal => xs.forM (sparing · spared refusal) := by
  induction xs with
  | nil => exact of_grows (grows_pure _)
  | cons x xs ih =>
    exact bind (h x (List.mem_cons_self ..)) fun _ _ _ _ =>
      ih fun y hy => h y (List.mem_cons_of_mem _ hy)

/-- A part of a check in a context of its own, from which it comes back with the world that it
has then, and with its fault if there is one. -/
theorem enclosed {wrap : Check σ α → Check σ β} (enter : Context → Context)
    (hsame : ∀ {m m' : Check σ α} {context world},
      m ⟨enter context, world⟩ = m' ⟨enter context, world⟩ →
      wrap m ⟨context, world⟩ = wrap m' ⟨context, world⟩)
    (herror : ∀ {m : Check σ α} {context world fault after},
      m ⟨enter context, world⟩ = .error fault after →
      ∃ left, wrap m ⟨context, world⟩ = .error fault left)
    (hok : ∀ {m : Check σ α} {context world b left}, wrap m ⟨context, world⟩ = .ok b left →
      ∃ a after, m ⟨enter context, world⟩ = .ok a after ∧ left.world = after.world)
    (h : Listable plain sparing) :
    Listable (wrap plain) fun spared refusal => wrap (sparing spared refusal) := by
  rintro ⟨context, world⟩
  obtain ⟨fillings, hlists⟩ := h ⟨enter context, world⟩
  refine ⟨fillings, fun spared refusal hspared => hsame (hlists.same spared refusal hspared),
    fun spared refusal filling hmem hspared => ?_, fun b left hleft => ?_⟩
  · obtain ⟨stopped, hstopped⟩ := hlists.refused spared refusal filling hmem hspared
    exact herror hstopped
  · obtain ⟨a, after, hplain, hworld⟩ := hok hleft
    rw [hworld]
    exact hlists.spaced a after hplain

theorem bracket {enter leave : Context → Context} (h : Listable plain sparing) :
    Listable (bracket enter leave plain) fun spared refusal =>
      Check.bracket enter leave (sparing spared refusal) := by
  refine enclosed enter (fun heq => ?_) (fun herror => ?_) (fun hok => ?_) h
  · simp only [Check.bracket, heq]
  · simp only [Check.bracket, herror]
    exact ⟨_, rfl⟩
  · simp only [Check.bracket] at hok
    split at hok
    · next heq =>
      cases hok
      exact ⟨_, _, heq, rfl⟩
    · cases hok

theorem trial {copies : List (Ref × Ref)} (h : Listable plain sparing) :
    Listable (trial copies plain) fun spared refusal =>
      Check.trial copies (sparing spared refusal) := by
  refine enclosed (·.fork copies) (fun heq => ?_) (fun herror => ?_) (fun hok => ?_) h
  · simp only [Check.trial, heq]
  · simp only [Check.trial, herror]
    exact ⟨_, rfl⟩
  · simp only [Check.trial] at hok
    split at hok
    · next heq =>
      cases hok
      exact ⟨_, _, heq, rfl⟩
    · cases hok

theorem under (accessor : Accessor) (h : Listable plain sparing) :
    Listable (under accessor plain) fun spared refusal =>
      Check.under accessor (sparing spared refusal) :=
  h.bracket

theorem inside (ref : Ref) {plain : Check σ Unit} {sparing : Sparing σ Unit}
    (h : Listable plain sparing) :
    Listable (inside ref plain) fun spared refusal => Check.inside ref (sparing spared refusal) :=
  after (grows_readContext _) fun _ => after (grows_readContext _) fun _ =>
    ite (of_grows (grows_report _ _)) h.bracket

theorem visiting (h : Listable plain sparing) :
    Listable (visiting plain) fun spared refusal => Check.visiting (sparing spared refusal) :=
  after (grows_readContext _) fun _ =>
    ite (after (grows_readContext _) fun _ => of_grows (grows_throw _)) h.bracket

/-- Where definitions are produced, what comes after may hang on them. -/
theorem ofForcing {m : Forcing σ α} {f : α → Check σ β} {sparingNext : α → Sparing σ β}
    (hf : ∀ env a env', m env = .ok a env' → Listable (f a) (sparingNext a)) :
    Listable (Check.ofForcing m >>= f) fun spared refusal =>
      Check.ofForcing m >>= (sparingNext · spared refusal) := by
  refine bind (of_grows (grows_ofForcing m)) fun session a after hok => ?_
  have harrives : Arrives (fun _ => True) session.context session.world.heap (Check.ofForcing m)
      fun _ a => ∃ env env', m env = .ok a env' :=
    .ofForcing fun env a env' hforce => ⟨env, env', hforce⟩
  obtain ⟨env, env', hforce⟩ := harrives.of_ok hok
  exact hf env a env' hforce

/-! ## Keywords -/

section Keywords

variable {host : Host σ} {recurse : Recurse σ}
  {recurseSparing : (Filling σ → Prop) → ValidationError → Recurse σ} {good : Definition → Prop}
  {resolved : Resolved} {context : Context}
  (hrecurse : ∀ value definition, good definition →
    Listable (recurse value definition) (recurseSparing · · value definition))
include hrecurse

theorem alternatives (value : Value) (failures : List (List Violation))
    {definitions : List Definition} (hdefinitions : ∀ d ∈ definitions, good d) :
    Listable (alternatives recurse value failures definitions) fun spared refusal =>
      Check.alternatives (recurseSparing spared refusal) value failures definitions := by
  induction definitions generalizing failures with
  | nil => exact before (of_grows (grows_report _ _)) fun _ => grows_pure _
  | cons first rest ih =>
    have hfirst := hdefinitions first (List.mem_cons_self ..)
    refine bind (after (grows_copy value) fun copied => (hrecurse _ _ hfirst).trial)
      fun _ violations _ _ => ite (hrecurse _ _ hfirst) (ih _ fun d hd => ?_)
    exact hdefinitions d (List.mem_cons_of_mem _ hd)

theorem either (value : Value) (hleads : resolved.node.Leads host (fun _ => good) context) :
    Listable (either recurse resolved value) fun spared refusal =>
      Check.either (recurseSparing spared refusal) resolved value := by
  unfold Check.either
  cases heither : resolved.node.either with
  | none => exact of_grows (grows_pure _)
  | some definitions =>
    exact alternatives hrecurse value [] fun d hd => (hleads.either definitions heither d hd).1

theorem schema (value : Value) (hleads : resolved.node.Leads host (fun _ => good) context) :
    Listable (schema host recurse resolved value) fun spared refusal =>
      Check.schema host (recurseSparing spared refusal) resolved value := by
  unfold Check.schema
  cases hschema : resolved.node.schema with
  | none => exact of_grows (grows_pure _)
  | some fields =>
    cases value with
    | object ref =>
      refine before (ofForcing fun env declared env' hresolve => inside ref (before
        (forM fun field hfield => ?_) fun _ => ?_)) fun _ => grows_pure _
      · have hdefinition := hleads.field fields hschema env declared env' hresolve field hfield 0
        exact after (grows_readHeap _) fun current =>
          before (under _ (hrecurse _ _ hdefinition)) fun checked =>
            .ite (grows_insertField _ _ _) (grows_pure _)
      · exact .ite (.of_arrives fun _ _ => (Course.growing σ).arrives_undeclared _ (Nat.le_refl _))
          (grows_pure _)
    | _ => exact of_grows (.of_arrives fun _ _ => .returning (.demand trivial (Nat.le_refl _)))

theorem items (value : Value) (hleads : resolved.node.Leads host (fun _ => good) context) :
    Listable (items recurse resolved value) fun spared refusal =>
      Check.items (recurseSparing spared refusal) resolved value := by
  unfold Check.items
  cases hitems : resolved.node.items with
  | none => exact of_grows (grows_pure _)
  | some definition =>
    have hdefinition := hleads.item definition hitems 0 (.index 0)
    cases value with
    | array ref =>
      exact before (inside ref (after (grows_readHeap _) fun _ => forM fun _ _ =>
        before (under _ (hrecurse _ _ hdefinition)) fun _ => grows_setItem _ _ _)) fun _ =>
          grows_pure _
    | object ref =>
      exact before (inside ref (after (grows_readHeap _) fun _ => forM fun _ _ =>
        before (under _ (hrecurse _ _ hdefinition)) fun _ => grows_insertField _ _ _)) fun _ =>
          grows_pure _
    | _ => exact before (of_grows (grows_report _ _)) fun _ => grows_pure _

theorem demands (value : Value) (hcustom : ∀ code, resolved.node.custom ≠ some (.host code))
    (hleads : resolved.node.Leads host (fun _ => good) context) :
    Listable (demands host recurse resolved value) fun spared refusal =>
      Check.demands host (recurseSparing spared refusal) resolved value := by
  unfold Check.demands
  refine ite (before (of_grows (grows_demand _ _)) fun _ => grows_pure _) ?_
  simp only [keywords, List.foldlM_cons, List.foldlM_nil]
  refine after (.of_course fun _ _ => Course.arrives_type trivial) fun _ =>
    after (.of_course fun _ _ => Course.arrives_oneOf trivial) fun _ =>
    after (.of_course fun _ _ => Course.arrives_bounds trivial) fun _ => ?_
  refine bind (either hrecurse _ hleads) fun _ _ _ _ =>
    bind (schema hrecurse _ hleads) fun _ _ _ _ => ?_
  refine after (.of_course fun _ _ => Course.arrives_require trivial) fun _ =>
    after (.of_course fun _ _ => Course.arrives_restrict trivial) fun _ => ?_
  refine bind (items hrecurse _ hleads) fun _ _ _ _ => ?_
  exact before (of_grows (.of_course fun _ _ => Course.arrives_custom trivial hcustom))
    fun _ => grows_pure _

end Keywords

/-- A document that is filled in is listed. -/
theorem supply {host : Host σ} {resolved : Resolved}
    (hunaided : ∀ code, resolved.node.fallback ≠ some (.produced code)) (value : Value) :
    Listable (supply host resolved value) fun spared refusal =>
      supplySparing host spared refusal resolved value := by
  intro session
  by_cases hfills : ∃ json, resolved.Fills session.context value json
  · obtain ⟨json, hfills⟩ := hfills
    have honly : ∀ other, resolved.Fills session.context value other → other = json := by
      intro other hother
      exact Fallback.literal.inj (Option.some.inj (hother.fallback.symm.trans hfills.fallback))
    refine ⟨[⟨json, session⟩], fun spared refusal hspared => ?_,
      fun spared refusal filling hmem hspared => ?_, fun a after hok => ?_⟩
    · refine guarding_of_permitted fun other hother => ?_
      rw [honly other hother]
      exact hspared _ (List.mem_singleton_self _)
    · obtain rfl := List.mem_singleton.1 hmem
      exact ⟨session, if_neg fun hpermitted => hpermitted json hfills hspared⟩
    · rw [supply_of_fills host hfills] at hok
      cases hok
      exact .single ⟨json, session⟩
  · have hgrows : Grows (Check.supply host resolved value) := by
      rw [← supplySparing_nothing host .exhausted]
      exact .of_course fun _ _ => Course.arrives_supply trivial nofun hunaided
    exact ⟨[], fun spared refusal _ => guarding_of_permitted fun json hfills' =>
      absurd ⟨json, hfills'⟩ hfills, nofun, fun a after hok => .nil (hgrows session a after hok)⟩

/-- **The fillings of a node can be listed** if those of its parts can. -/
theorem node {host : Host σ} {recurse : Recurse σ}
    {recurseSparing : (Filling σ → Prop) → ValidationError → Recurse σ} {good : Definition → Prop}
    {definition : Definition} (hrecurse : ∀ value definition, good definition →
      Listable (recurse value definition) (recurseSparing · · value definition))
    (hnode : ∀ env keywords env', definition.unfold host maxThunkChain env = .ok keywords env' →
      Definition.Unaided (.node keywords) ∧
        keywords.Leads host (fun _ => good) (.start {})) (value : Value) :
    Listable (node host recurse value definition) fun spared refusal =>
      nodeSparing host spared refusal (recurseSparing spared refusal) value definition := by
  refine after (grows_readContext _) fun policy => ofForcing fun env resolved env' hresolve => ?_
  obtain ⟨keywords, hunfold, rfl⟩ := Definition.unfold_of_resolve hresolve
  obtain ⟨hunaided, hleads⟩ := hnode env keywords env' hunfold
  exact bind (supply hunaided.1 value) fun _ a _ _ => demands hrecurse a hunaided.2 hleads

end Listable

end Check

/-! ## Checks -/

/-- **The fillings of every check can be listed**, if no definition has a default or a transform
of the program around the library. -/
theorem listable_checkWithin (host : Host σ) (depth : Nat) (value : Value)
    {definition : Definition} (hdefinition : definition.Throughout host Definition.Unaided) :
    Check.Listable (checkWithin host depth value definition) fun spared refusal =>
      checkSparing host spared refusal depth value definition := by
  induction depth generalizing value definition with
  | zero => exact .of_grows (Check.grows_throw _)
  | succ depth ih =>
    exact .visiting (.node (fun value _ => ih value) (fun _ _ _ hunfold =>
      hdefinition.leads hunfold _) value)

/-- **The fillings of a completed check**: no two of them make the same container, and the check
that spares none of them is the check. -/
theorem exists_fillings {host : Host σ} {options : Options} {value : Value}
    {definition : Definition} {world : World σ}
    (hdefinition : definition.Throughout host Definition.Unaided) {outcome : Outcome}
    (houtcome : (check host options value definition world).1 = .ok outcome) :
    ∃ fillings : List (Filling σ),
      (∀ filling, filling.MadeBy host options value definition world ↔ filling ∈ fillings) ∧
      (∀ f ∈ fillings, ∀ g ∈ fillings, ∀ ref, f.Creates ref → g.Creates ref → f = g) ∧
      ∀ spared refusal, (∀ filling ∈ fillings, ¬ spared filling) →
        checkSparing host spared refusal (nestingBound world.heap definition) value definition
            ⟨.start options, world⟩ =
          checkWithin host (nestingBound world.heap definition) value definition
            ⟨.start options, world⟩ := by
  obtain ⟨fillings, hlists⟩ := listable_checkWithin host (nestingBound world.heap definition) value
    hdefinition ⟨.start options, world⟩
  unfold check at houtcome
  cases hrun : checkWithin host (nestingBound world.heap definition) value definition
    ⟨.start options, world⟩ with
  | error fault after =>
    rw [hrun] at houtcome
    cases houtcome
  | ok result after =>
    refine ⟨fillings, fun filling => ⟨fun hmade => ?_, fun hmem => ⟨.exhausted, ?_⟩⟩,
      fun f hf g hg ref => (hlists.spaced result after hrun).eq_of_creates hf hg, ?_⟩
    · obtain ⟨refusal, hne⟩ := hmade
      by_contra hmem
      refine hne (hlists.same _ refusal fun other hother heq => ?_)
      exact hmem (heq ▸ hother)
    · obtain ⟨stopped, hstopped⟩ := hlists.refused (· = filling) .exhausted filling hmem rfl
      rw [hstopped, hrun]
      nofun
    · intro spared refusal hspared
      rw [hlists.same spared refusal hspared, hrun]

end Conform
