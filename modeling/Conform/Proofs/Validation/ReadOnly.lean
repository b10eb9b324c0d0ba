import Conform.Proofs.Validation.Grammar

/-!
# The check against the grammar only reads

A value of any kind can be checked against the grammar of definitions, also one that contains
itself or holds functions.  The check comes to an end without a fault and leaves every
container as it was.

Whatever is checked is given back as it is, since the grammar has no defaults, no moments and
no transforms that replace a value; so what is written back to a container is what was read
there.  Every step into the value enters a container that the way has not come through, where
copies count as their originals.  The containers that are left are the height of the place,
and as the check goes down there are fewer of them.

## Main definitions

* `Check.Passes`: a check that passes a value on.
* `Context.Grounded`: a check that stands at a value from which so many containers are left.

## Main results

* `Check.passes_node`: a node passes the value on if its parts do.
* `Validator.errors_grammar_readOnly`: the validator of definitions ends without a fault and
  leaves every container as it was.
-/

namespace Conform

variable {σ : Type}

/-! ## Where a check stands -/

/-- A check stands at a value, which may contain itself.  Every container that it leads to has
its origin in the heap in which the whole check began.  So many of those are left that are not
on the way, and there is room for so many definitions at this place. -/
structure Context.Grounded (context : Context) (first base : Heap) (value : Value)
    (left room : Nat) : Prop where
  collecting : context.asserting = false
  holds : base.Holds value
  origins : ∀ origin ∈ context.origins, origin.1 < base.size
  known : ∀ ref, base.Reachable value ref → context.originOf ref < first.size
  left : (first.unseen context.ancestors).card ≤ left
  roomy : context.Roomy room

namespace Context.Grounded

variable {context : Context} {first base heap : Heap} {value part : Value} {left room : Nat}
  {ref : Ref}

/-- Where a whole check begins, all containers of the heap are left. -/
theorem start {options : Options} (hcollecting : options.assert = false)
    (hholds : base.Holds value) (hroom : room ≤ maxNesting) :
    (Context.start options).Grounded base base value base.size room where
  collecting := hcollecting
  holds := hholds
  origins := nofun
  known := fun ref hreach => hholds ref hreach
  left := by simp [Context.start, Heap.unseen]
  roomy := .start options hroom

theorem mono {less : Nat} (hle : less ≤ room)
    (h : context.Grounded first base value left room) :
    context.Grounded first base value left less :=
  { h with roomy := h.roomy.mono hle }

/-- Taking up a definition takes some of the room. -/
theorem visited (h : context.Grounded first base value left (room + 1)) :
    context.visited.Grounded first base value left room :=
  { h with roomy := h.roomy.visited }

/-- One step on there is all the room, and one container less is left. -/
theorem entered (h : context.Grounded first base value left room) (href : value.ref? = some ref)
    (hnew : context.originOf ref ∉ context.ancestors)
    (hpart : ∀ child, base.Reachable part child → base.Reachable value child)
    (accessor : Accessor) :
    ∃ lower < left, (context.entered ref accessor).Grounded first base part lower maxNesting := by
  have hless := Heap.card_unseen_cons_lt (h.known ref (.root href)) hnew
  refine ⟨_, Nat.lt_of_lt_of_le hless h.left, ?_⟩
  exact
    { collecting := h.collecting
      holds := fun child hchild => h.holds child (hpart child hchild)
      origins := h.origins
      known := fun child hchild => h.known child (hpart child hchild)
      left := Nat.le_refl _
      roomy := h.roomy.entered ref accessor (Nat.le_refl _) }

/-- A trial stands at the copy as the check stands at the value. -/
theorem fork (h : context.Grounded first base value left room)
    (hheap : (Invariant.untouched base).holds .still heap) :
    (context.fork (value.copyWithOrigins heap).1.2).Grounded first (value.copyWithOrigins heap).2
      (value.copyWithOrigins heap).1.1 left room := by
  have hfresh : ∀ origin ∈ context.origins, origin.1 < heap.size :=
    fun origin horigin => Nat.lt_of_lt_of_le (h.origins origin horigin) hheap.1
  -- A copy leads to copies alone.
  have hcopied : ∀ ref, (value.copyWithOrigins heap).2.Reachable (value.copyWithOrigins heap).1.1
      ref → ∃ original, Ref.Copied (heap.reach value) heap.size original ref := by
    intro ref hreach
    induction hreach with
    | root hroot => exact value.ref?_copyWithOrigins heap hroot
    | child _ hchild ih =>
      obtain ⟨original, hparent⟩ := ih
      rcases value.child_copyWithOrigins heap hchild with ⟨hlt, -⟩ | ⟨-, hcopy⟩
      · exact absurd hlt (Nat.not_lt.2 hparent.le)
      · exact hcopy
  exact
    { collecting := rfl
      holds := by
        intro ref hreach
        obtain ⟨original, hcopy⟩ := hcopied ref hreach
        rw [Value.size_copyWithOrigins]
        exact hcopy.lt
      origins := fun origin => lt_of_mem_origins_fork hfresh
      known := by
        intro ref hreach
        obtain ⟨original, hcopy⟩ := hcopied ref hreach
        rw [originOf_fork_of_copied hfresh hcopy]
        exact h.known original (Invariant.reachable_of_untouched h.holds hheap
          (Heap.mem_reach_iff.1 hcopy.mem))
      left := h.left
      roomy := h.roomy.fork _ }

end Context.Grounded

namespace Check

variable {α β : Type}

/-! ## Passing on a value -/

/-- Wherever containers are as they were in `base`, a check comes to `a` without a fault and
leaves them as they were. -/
def Passes (base : Heap) (context : Context) (m : Check σ α) (a : α) : Prop :=
  (Terms.untouched base).Ensures context m fun b _ => b = a

namespace Passes

variable {base : Heap} {context : Context} {m : Check σ α} {a : α}

theorem of_judges {P : Prop} (h : Judges base context m a P) : Passes base context m a :=
  h.imp fun _ _ hjudged => hjudged.1

theorem pure (a : α) : Passes base context (Pure.pure a : Check σ α) a := .of_judges (.pure a)

/-- **Steps in sequence** pass on what the last one passes on. -/
theorem bind {f : α → Check σ β} {b : β} (hm : Passes base context m a)
    (hf : Passes base context (f a) b) : Passes base context (m >>= f) b :=
  Terms.Ensures.bind hm fun _ _ heq => heq ▸ hf

theorem returning (hm : Passes base context m a) (b : β) :
    Passes base context (do let _ ← m; return b) b :=
  hm.bind (.pure b)

theorem forM {f : β → Check σ PUnit} {xs : List β}
    (h : ∀ x ∈ xs, Passes base context (f x) ⟨⟩) : Passes base context (xs.forM f) ⟨⟩ :=
  (Terms.Ensures.forM (P := fun _ _ => True) fun x hx => (h x hx).imp fun _ _ _ => trivial).imp
    fun _ _ _ => rfl

/-- A fold whose steps all pass on the value. -/
theorem foldlM {f : α → β → Check σ α} {xs : List β}
    (h : ∀ x ∈ xs, Passes base context (f a x) a) : Passes base context (xs.foldlM f a) a := by
  induction xs with
  | nil => exact .pure a
  | cons x xs ih =>
    rw [List.foldlM_cons]
    exact (h x (List.mem_cons_self ..)).bind (ih fun y hy => h y (List.mem_cons_of_mem _ hy))

/-- Into a container, also where the way has come through it: then there is a complaint. -/
theorem inside {ref : Ref} {m : Check σ Unit} (hcollecting : context.asserting = false)
    (h : context.originOf ref ∉ context.ancestors → Passes base
      { context with ancestors := context.originOf ref :: context.ancestors } m ()) :
    Passes base context (Check.inside ref m) () :=
  Terms.Ensures.inside (fun _ => of_judges (.report hcollecting .cycle [])) h

/-- **Alternatives** pass on the value if each does, on the value and on copies of it. -/
theorem alternatives {recurse : Recurse σ} {value : Value} {definitions : List Definition}
    (hcollecting : context.asserting = false)
    (htry : ∀ d ∈ definitions, ∀ heap, (Invariant.untouched base).holds .still heap →
      Passes (value.copyWithOrigins heap).2 (context.fork (value.copyWithOrigins heap).1.2)
        (recurse (value.copyWithOrigins heap).1.1 d) (value.copyWithOrigins heap).1.1)
    (hrun : ∀ d ∈ definitions, Passes base context (recurse value d) value) :
    Passes base context (alternatives recurse value [] definitions) value := by
  refine Terms.Ensures.alternatives (fun _ _ => True) (fun d hd => ?_) (fun d hd _ => hrun d hd)
    (fun _ inner => ?_) []
  · refine .tryAlternative fun heap hheap => ?_
    refine ⟨Terms.untouched (value.copyWithOrigins heap).2, Invariant.holds_untouched_self,
      fun heap' hheap' => ?_, fun _ => id, (htry d hd heap hheap).imp fun _ _ _ => ⟨rfl, trivial⟩⟩
    exact Invariant.untouched_trans (Invariant.untouched_copy hheap value).1 hheap'
  · exact (Judges.report hcollecting .noAlternative inner).imp fun _ _ _ => rfl

end Passes

/-! ## Keywords -/

variable {host : Host σ} {first base : Heap} {context : Context} {value part : Value}
  {left room depth : Nat} {resolved : Resolved} {definition : Definition} {ref : Ref}

/-- The check of a definition passes on every value at which it stands. -/
def Passing (host : Host σ) (first : Heap) (depth left room : Nat) (definition : Definition) :
    Prop :=
  ∀ (base : Heap) (context : Context) (value : Value),
    context.Grounded first base value left room →
    Passes base context (checkWithin host depth value definition) value

theorem passes_type (hgrounded : context.Grounded first base value left room)
    (hmoment : resolved.node.kind ≠ some .dateTime) :
    Passes base context (type resolved value : Check σ Value) value := by
  unfold type
  split
  · exact .pure value
  · next hsome => exact absurd hsome hmoment
  · exact .of_judges ((Judges.demand hgrounded.collecting _ _).returning value)

/-- What is found may differ from heap to heap; it makes no difference here. -/
theorem passes_oneOf (hgrounded : context.Grounded first base value left room) :
    Passes base context (oneOf resolved value : Check σ Value) value := by
  unfold oneOf
  split
  · exact .pure value
  · refine Terms.Ensures.after (P := fun _ => True) (.readHeap fun _ _ => ⟨rfl, trivial⟩)
      fun found _ => ?_
    exact Passes.of_judges ((Judges.demand hgrounded.collecting found _).returning value)

theorem passes_custom (hgrounded : context.Grounded first base value left room)
    (hnonEmpty : ∀ transform, resolved.node.custom = some transform → transform = .nonEmpty) :
    Passes base context (custom host resolved value) value := by
  unfold custom
  split
  · exact .pure value
  · next transform hsome =>
    obtain rfl := hnonEmpty transform hsome
    refine Terms.Ensures.after (P := fun result => ∀ other, result = .ok other → other = value)
      (.ofRun fun world hheap => ⟨?_, rfl, fun other hother => ?_⟩) fun result hresult => ?_
    · rwa [Transform.world_nonEmpty]
    · exact Transform.eq_of_nonEmpty hother
    · cases result with
      | ok other =>
        obtain rfl := hresult other rfl
        exact Passes.pure other
      | error reason =>
        exact Passes.of_judges ((Judges.report hgrounded.collecting _ _).returning value)

section Parts

/-- A part of the value is passed on, one step further down. -/
theorem passes_part (hgrounded : context.Grounded first base value left room)
    (hpassing : ∀ lower < left, Passing host first depth lower maxNesting definition)
    (href : value.ref? = some ref) (hnew : context.originOf ref ∉ context.ancestors)
    (hpart : ∀ child, base.Reachable part child → base.Reachable value child)
    (accessor : Accessor) :
    Passes base { context with ancestors := context.originOf ref :: context.ancestors }
      (under accessor (checkWithin host depth part definition)) part := by
  obtain ⟨lower, hlower, hentered⟩ := hgrounded.entered href hnew hpart accessor
  exact Terms.Ensures.under (hpassing lower hlower _ _ part hentered)

theorem passes_field (hgrounded : context.Grounded first base (.object ref) left room)
    (hpassing : ∀ lower < left, Passing host first depth lower maxNesting definition)
    (hnew : context.originOf ref ∉ context.ancestors) (name : String) :
    Passes base { context with ancestors := context.originOf ref :: context.ancestors }
      (field (checkWithin host depth) ref name definition) () := by
  have hlt := hgrounded.holds ref (.root rfl)
  have hread : ∀ heap, (Invariant.untouched base).holds .still heap →
      (heap.fields ref).get? name = (base.fields ref).get? name := fun heap hheap => by
    rw [Invariant.fields_eq_of_untouched hheap hlt]
  refine (Passes.of_judges (.readHeap hread)).bind ?_
  -- A field that was there is put back, and a missing one stays missing.
  cases hget : (base.fields ref).get? name with
  | none =>
    refine (passes_part hgrounded hpassing rfl hnew (fun child hchild => ?_) _).bind (.pure ())
    exact absurd hchild (Heap.not_reachable_of_ref?_none rfl child)
  | some current =>
    refine (passes_part hgrounded hpassing rfl hnew (fun child hchild => ?_) _).bind ?_
    · exact .of_child (.root rfl) (Heap.mem_children_of_get? hget) hchild
    · exact .of_judges (.changeHeap fun heap hheap =>
        heap.insertField_self ((hread heap hheap).trans hget))

theorem passes_undeclared (hcollecting : context.asserting = false) (hlt : ref < base.size)
    (declared : List String) :
    Passes base context (undeclared ref declared : Check σ Unit) () := by
  have hread : ∀ heap, (Invariant.untouched base).holds .still heap →
      (heap.fields ref).keys = (base.fields ref).keys := fun heap hheap => by
    rw [Invariant.fields_eq_of_untouched hheap hlt]
  exact .of_judges ((Judges.readHeap hread).after (.forM fun _ _ => .demandAt hcollecting _ _ _))

theorem passes_schema (hgrounded : context.Grounded first base value left room)
    (hnode : resolved.node.Grammatical)
    (hparts : resolved.node.PartsMeet (Passing host first) depth left room) :
    Passes base context (schema host (checkWithin host depth) resolved value) value := by
  unfold schema
  split
  · exact .pure value
  · next fields hsome =>
    obtain ⟨declared, rfl, -, -⟩ := hnode.schema fields hsome
    unfold withObject
    split
    · next ref =>
      refine Passes.returning (a := ()) ?_ _
      refine (Passes.of_judges (Judges.ofForcing fun _ => rfl)).bind
        (.inside hgrounded.collecting fun hnew => ?_)
      refine Passes.bind (.forM fun field hfield =>
        passes_field hgrounded (hparts.fields declared hsome field hfield) hnew field.1) ?_
      split
      · refine passes_undeclared ?_ (hgrounded.holds ref (.root rfl)) _
        exact hgrounded.collecting
      · exact .pure ()
    · exact .of_judges ((Judges.demand hgrounded.collecting _ _).returning _)

theorem passes_item (hgrounded : context.Grounded first base (.array ref) left room)
    (hpassing : ∀ lower < left, Passing host first depth lower maxNesting definition)
    (hnew : context.originOf ref ∉ context.ancestors) {i : Nat}
    (hpart : (base.items ref)[i]? = some part) :
    Passes base { context with ancestors := context.originOf ref :: context.ancestors }
      (item (checkWithin host depth) ref definition part i) () := by
  refine (passes_part hgrounded hpassing rfl hnew (fun child hchild => ?_) _).bind
    (.of_judges (.changeHeap fun heap hheap => heap.setItem_self ?_))
  · exact .of_child (.root rfl)
      (Heap.mem_children_of_mem_items (List.mem_of_getElem? hpart)) hchild
  · rwa [Invariant.items_eq_of_untouched hheap (hgrounded.holds ref (.root rfl))]

theorem passes_entry (hgrounded : context.Grounded first base (.object ref) left room)
    (hpassing : ∀ lower < left, Passing host first depth lower maxNesting definition)
    (hnew : context.originOf ref ∉ context.ancestors) {name : String}
    (hpart : (base.fields ref).get? name = some part) :
    Passes base { context with ancestors := context.originOf ref :: context.ancestors }
      (entry (checkWithin host depth) ref definition name part) () := by
  refine (passes_part hgrounded hpassing rfl hnew (fun child hchild => ?_) _).bind
    (.of_judges (.changeHeap fun heap hheap => heap.insertField_self ?_))
  · exact .of_child (.root rfl) (Heap.mem_children_of_get? hpart) hchild
  · rwa [Invariant.fields_eq_of_untouched hheap (hgrounded.holds ref (.root rfl))]

theorem passes_items (hgrounded : context.Grounded first base value left room)
    (hparts : resolved.node.PartsMeet (Passing host first) depth left room) :
    Passes base context (items (checkWithin host depth) resolved value) value := by
  unfold items
  split
  · exact .pure _
  · next definition ref hsome =>
    have hread : ∀ heap, (Invariant.untouched base).holds .still heap →
        heap.items ref = base.items ref := fun heap hheap =>
      Invariant.items_eq_of_untouched hheap (hgrounded.holds ref (.root rfl))
    refine (Passes.inside hgrounded.collecting fun hnew => ?_).returning _
    refine (Passes.of_judges (.readHeap hread)).bind (.forM fun place hplace => ?_)
    exact passes_item hgrounded (hparts.items definition hsome) hnew
      (List.mk_mem_zipIdx_iff_getElem?.1 hplace)
  · next definition ref hsome =>
    have hread : ∀ heap, (Invariant.untouched base).holds .still heap →
        (heap.fields ref).entries = (base.fields ref).entries := fun heap hheap => by
      rw [Invariant.fields_eq_of_untouched hheap (hgrounded.holds ref (.root rfl))]
    refine (Passes.inside hgrounded.collecting fun hnew => ?_).returning _
    refine (Passes.of_judges (.readHeap hread)).bind (.forM fun place hplace => ?_)
    exact passes_entry hgrounded (hparts.items definition hsome) hnew
      (OrderedMap.get?_of_mem hplace)
  · exact .of_judges ((Judges.report hgrounded.collecting _ _).returning _)

theorem passes_either (hgrounded : context.Grounded first base value left room)
    (hparts : resolved.node.PartsMeet (Passing host first) depth left room) :
    Passes base context (either (checkWithin host depth) resolved value) value := by
  unfold either
  split
  · exact .pure value
  · next definitions hsome =>
    refine Passes.alternatives hgrounded.collecting (fun d hd heap hheap => ?_) fun d hd => ?_
    · exact hparts.either definitions hsome d hd _ _ _ (hgrounded.fork hheap)
    · exact hparts.either definitions hsome d hd base context value hgrounded

end Parts

/-! ## Nodes -/

variable {keywords : Node Definition}

/-- **The keywords of a node in turn** pass on the value. -/
theorem passes_demands (hgrounded : context.Grounded first base value left room)
    (hnode : keywords.Grammatical)
    (hparts : keywords.PartsMeet (Passing host first) depth left room) (policy : Policy) :
    Passes base context
      (demands host (checkWithin host depth) (policy.complete keywords) value) value := by
  unfold demands
  split
  · exact .of_judges ((Judges.demand hgrounded.collecting _ _).returning value)
  have hbounds : Passes base context (bounds (policy.complete keywords) value : Check σ Value)
      value := by
    simp only [bounds, Policy.complete, hnode.bounds]
    exact .pure value
  have hrequire : Passes base context (require (policy.complete keywords) value : Check σ Value)
      value := by
    simp only [require, Policy.complete, hnode.require]
    exact .pure value
  have hrestrict : Passes base context (restrict (policy.complete keywords) value : Check σ Value)
      value := by
    simp only [restrict, Policy.complete, hnode.restrict]
    exact .pure value
  refine Passes.foldlM fun keyword hkeyword => ?_
  simp only [Check.keywords, List.mem_cons, List.not_mem_nil, or_false] at hkeyword
  rcases hkeyword with rfl | rfl | rfl | rfl | rfl | rfl | rfl | rfl | rfl
  · exact passes_type hgrounded hnode.moment
  · exact passes_oneOf hgrounded
  · exact hbounds
  · exact passes_either hgrounded hparts
  · exact passes_schema hgrounded hnode hparts
  · exact hrequire
  · exact hrestrict
  · exact passes_items hgrounded hparts
  · exact passes_custom hgrounded hnode.custom

/-- **A node passes the value on if its parts do**, one definition further down. -/
theorem passing_node (hnode : keywords.Grammatical)
    (hparts : keywords.PartsMeet (Passing host first) depth left room) :
    Passing host first (depth + 1) left (room + 1) (.node keywords) := by
  intro base context value hgrounded
  refine Terms.Ensures.visiting (fun hmany =>
    absurd hgrounded.roomy.nesting_lt (Nat.not_lt.2 hmany)) fun _ => ?_
  refine Passes.bind (a := context.options.policy)
    (.of_judges (Judges.readContext (f := fun c => c.options.policy) fun _ => rfl)) ?_
  refine Passes.bind (a := context.options.policy.complete keywords)
    (.of_judges (Judges.ofForcing fun _ => rfl)) ?_
  have hsupply : (context.options.policy.complete keywords).node.fallback = none := hnode.fallback
  rw [supply_of_none hsupply]
  exact (Passes.pure value).bind (passes_demands hgrounded.visited hnode hparts _)

/-- That every value is passed on goes from the parts of a node to the node, and through the
thunk with which the grammar refers to itself. -/
theorem passable_passing (host : Host σ) (first : Heap) :
    Definition.Passable (Passing host first) where
  mono := fun hle h base context value hgrounded => h base context value (hgrounded.mono hle)
  node := passing_node
  shorthand := fun h => h
  thunk := fun h => h

/-- **The grammar passes on every value** whose containers are in the heap. -/
theorem passes_grammar (host : Host σ) (options : Options) (hcollecting : options.assert = false)
    (heap : Heap) (hholds : heap.Holds value) :
    Passes heap (.start options)
      (checkWithin host (nestingBound heap Definition.grammar) value Definition.grammar) value := by
  refine (passable_passing host heap).grammar heap.size ?_ heap _ value
    (.start hcollecting hholds (by decide))
  simp only [nestingBound, maxNesting, nestingReserve]
  omega

/-- A check that passes on its value ends with it, and old containers are as they were. -/
theorem Passes.check {options : Options} (world : World σ)
    (h : Passes world.heap (.start options)
      (checkWithin host (nestingBound world.heap definition) value definition) value) :
    (∃ violations, (Conform.check host options value definition world).1 =
      .ok ⟨value, violations⟩) ∧ ∀ ref, ref < world.heap.size →
        (Conform.check host options value definition world).2.heap.fetch ref =
          world.heap.fetch ref := by
  have hends : (Terms.untouched world.heap).Ends (.start options) [] (fun b _ => b = value)
      (checkWithin host (nestingBound world.heap definition) value definition
        ⟨.start options, world⟩) := h [] world Invariant.holds_untouched_self
  unfold Conform.check
  generalize checkWithin host (nestingBound world.heap definition) value definition
    ⟨.start options, world⟩ = r at hends
  cases hends with
  | ok hheap hvalue =>
    obtain rfl := hvalue
    exact ⟨⟨_, rfl⟩, fun ref hlt => Invariant.fetch_eq_of_untouched hheap hlt⟩
  | error _ hfault => cases hfault

end Check

/-! ## The validator of definitions -/

/-- **The check against the grammar only reads.**  Whatever the value is, the validator of
definitions comes to an end without a fault of a definition, without an assertion and with depth
to spare, and every container of the heap is as it was. -/
theorem Validator.errors_grammar_readOnly (host : Host σ) (value : Value) (world : World σ)
    (hholds : world.heap.Holds value) :
    (∃ violations?, (grammar.errors host value world).1 = .ok violations?) ∧
      ∀ ref, ref < world.heap.size →
        (grammar.errors host value world).2.heap.fetch ref = world.heap.fetch ref := by
  obtain ⟨⟨violations, hends⟩, hheap⟩ := Check.Passes.check world
    (Check.passes_grammar host grammar.settings.options rfl world.heap hholds)
  refine ⟨⟨_, errors_of_check hends⟩, fun ref hlt => ?_⟩
  rw [world_errors]
  exact hheap ref hlt

/-- An object that holds itself as the definition of its items and as an alternative, and a
function. -/
theorem Validator.errors_grammar_readOnly_cyclic :
    let world : World Unit := ⟨{ containers := #[
      .object (.ofList [("items", .object 0), ("custom", .function 0), ("either", .array 1)]),
      .array [.object 0, .object 0]] }, ()⟩
    world.heap.Holds (.object 0) ∧ ¬ world.heap.Acyclic (.object 0) ∧
      (∃ violations?, (grammar.errors default (.object 0) world).1 = .ok violations?) ∧
        ∀ ref, ref < world.heap.size →
          (grammar.errors default (.object 0) world).2.heap.fetch ref = world.heap.fetch ref := by
  intro world
  have hholds : world.heap.Holds (.object 0) := by
    simp only [Heap.Holds, ← Heap.mem_reach_iff]
    decide
  have hcyclic : ¬ world.heap.Acyclic (.object 0) := fun hacyclic =>
    hacyclic 0 (.root rfl) (.object 0) (by decide) (.root rfl)
  exact ⟨hholds, hcyclic, errors_grammar_readOnly default (.object 0) world hholds⟩

end Conform
