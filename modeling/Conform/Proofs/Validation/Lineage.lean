import Mathlib.Order.Interval.Set.Basic
import Conform.Proofs.Validation.Rehearsal
import Conform.Proofs.Value.Duplicate

/-!
# Where copies come from

A trial inside a trial works on copies of copies.  The context of the inner one knows each
of its copies by the container which the outermost original is, because the original of a
copy is looked up before the pair is recorded.  So however deep trials lie one inside the
other, one search through the recorded pairs leads to a container that is no copy, and a
container that a default or a transform has made stands for itself.

What a search should find is said by the pairs as they were made, each copy with the
container it was made of.  The context does not keep these; they are carried beside it
along the steps by which it is come to.

## Main definitions

* `Ref.CopiedTimes`: a container made of another by so many copies in a row.
* `Context.Reached`: the contexts that a check comes to, step by step.
* `Context.Lineage`: what the recorded pairs have to do with the pairs as they were made.
* `Context.Traced`: what that comes to for whoever looks up a container.

## Main results

* `Context.Lineage.fork`: a trial keeps the lineage.
* `Context.Reached.lineage`: so every context that is reached has it.
* `check_traced`: the contexts of a check are reached, and copies lead to their sources.
-/

namespace Conform

/-- The first container was made of the last one by so many copies in a row, each made of
the one before.  In a pair the copy comes first. -/
inductive Ref.CopiedTimes (copies : List (Ref × Ref)) : Nat → Ref → Ref → Prop where
  | zero (ref : Ref) : CopiedTimes copies 0 ref ref
  | succ {times : Nat} {copy original source : Ref} : (copy, original) ∈ copies →
      CopiedTimes copies times original source → CopiedTimes copies (times + 1) copy source

namespace Context

/-- The contexts that a check comes to which begins on a heap of size `base`, each with the
copies made for the trials under way, the containers added to the heap in any other way
since the check has begun, and the size of the heap. -/
inductive Reached (options : Options) (base : Nat) :
    List (Ref × Ref) → Set Ref → Nat → Context → Prop where
  | start : Reached options base [] ∅ base (.start options)
  | holding {copies : List (Ref × Ref)} {created : Set Ref} {size : Nat} {context : Context}
      (violations : List Violation) : Reached options base copies created size context →
      Reached options base copies created size (context.holding violations)
  | visited {copies : List (Ref × Ref)} {created : Set Ref} {size : Nat} {context : Context} :
      Reached options base copies created size context →
      Reached options base copies created size context.visited
  | entered {copies : List (Ref × Ref)} {created : Set Ref} {size : Nat} {context : Context}
      (ref : Ref) (accessor : Accessor) : Reached options base copies created size context →
      Reached options base copies created size (context.entered ref accessor)
  /-- Defaults, transforms and trials that have ended leave containers in the heap. -/
  | grown {copies : List (Ref × Ref)} {created : Set Ref} {size size' : Nat}
      {context : Context} : Reached options base copies created size context → size ≤ size' →
      Reached options base copies (created ∪ Set.Ico size size') size' context
  /-- A trial begins on a copy of a value in the heap. -/
  | fork {copies : List (Ref × Ref)} {created : Set Ref} {context : Context} {heap : Heap}
      {value : Value} : Reached options base copies created heap.size context →
      heap.Holds value →
      Reached options base (copies ++ (value.copyWithOrigins heap).1.2) created
        (value.copyWithOrigins heap).2.size (context.fork (value.copyWithOrigins heap).1.2)

/-- What the recorded pairs have to do with the pairs as they were made: the copies are the
same, and each leads to where its original leads. -/
structure Lineage (copies : List (Ref × Ref)) (created : Set Ref) (size : Nat)
    (context : Context) : Prop where
  recorded : context.origins.map Prod.fst = copies.map Prod.fst
  nodup : (copies.map Prod.fst).Nodup
  /-- A copy takes a later place than its original. -/
  later : ∀ copy original, (copy, original) ∈ copies → original < copy ∧ copy < size
  source : ∀ origin ∈ context.origins, origin.2 < size ∧ origin.2 ∉ copies.map Prod.fst
  originOf_copy : ∀ copy original, (copy, original) ∈ copies →
    context.originOf copy = context.originOf original
  created : ∀ ref ∈ created, ref < size ∧ ref ∉ copies.map Prod.fst

namespace Lineage

variable {copies : List (Ref × Ref)} {created : Set Ref} {size : Nat} {context : Context}

theorem start (options : Options) (size : Nat) : Lineage [] ∅ size (.start options) where
  recorded := rfl
  nodup := List.nodup_nil
  later := nofun
  source := nofun
  originOf_copy := nofun
  created := nofun

/-- Only the recorded pairs matter. -/
theorem of_origins_eq {context' : Context} (h : Lineage copies created size context)
    (heq : context'.origins = context.origins) : Lineage copies created size context' where
  recorded := heq ▸ h.recorded
  nodup := h.nodup
  later := h.later
  source := heq ▸ h.source
  originOf_copy := by simpa only [originOf, heq] using h.originOf_copy
  created := h.created

/-- The copies are in the heap. -/
theorem lt_of_mem (h : Lineage copies created size context) {ref : Ref}
    (hmem : ref ∈ copies.map Prod.fst) : ref < size := by
  obtain ⟨⟨copy, original⟩, hpair, rfl⟩ := List.mem_map.1 hmem
  exact (h.later copy original hpair).2

/-- New containers are no copies. -/
theorem grown {size' : Nat} (h : Lineage copies created size context) (hle : size ≤ size') :
    Lineage copies (created ∪ Set.Ico size size') size' context where
  recorded := h.recorded
  nodup := h.nodup
  later copy original hpair :=
    ⟨(h.later copy original hpair).1, Nat.lt_of_lt_of_le (h.later copy original hpair).2 hle⟩
  source origin horigin :=
    ⟨Nat.lt_of_lt_of_le (h.source origin horigin).1 hle, (h.source origin horigin).2⟩
  originOf_copy := h.originOf_copy
  created := by
    rintro ref (hold | ⟨hnew, hlt⟩)
    · exact ⟨Nat.lt_of_lt_of_le (h.created ref hold).1 hle, (h.created ref hold).2⟩
    · exact ⟨hlt, fun hmem => absurd (h.lt_of_mem hmem) (Nat.not_lt.2 hnew)⟩

/-! ## What is found -/

/-- What is no copy stands for itself. -/
theorem originOf_of_not_mem (h : Lineage copies created size context) {ref : Ref}
    (hmem : ref ∉ copies.map Prod.fst) : context.originOf ref = ref := by
  refine Context.originOf_of_not_mem context fun origin horigin heq => hmem ?_
  rw [← h.recorded, ← heq]
  exact List.mem_map_of_mem horigin

/-- What is found is in the heap and no copy. -/
theorem originOf_source (h : Lineage copies created size context) {ref : Ref}
    (hlt : ref < size) :
    context.originOf ref < size ∧ context.originOf ref ∉ copies.map Prod.fst := by
  by_cases hmem : ref ∈ copies.map Prod.fst
  · rw [← h.recorded] at hmem
    unfold originOf
    split
    · next origin hfind => exact h.source origin (List.mem_of_find?_eq_some hfind)
    · next hnone =>
      obtain ⟨origin, horigin, heq⟩ := List.mem_map.1 hmem
      exact absurd (beq_iff_eq.2 heq) (List.find?_eq_none.1 hnone origin horigin)
  · rw [h.originOf_of_not_mem hmem]
    exact ⟨hlt, hmem⟩

/-- However many copies were made in a row, the search leads back to the container of which
the first was made. -/
theorem originOf_of_copiedTimes (h : Lineage copies created size context) {times : Nat}
    {ref source : Ref} (htimes : Ref.CopiedTimes copies times ref source)
    (hsource : source ∉ copies.map Prod.fst) : context.originOf ref = source := by
  induction htimes with
  | zero ref => exact h.originOf_of_not_mem hsource
  | succ hpair _ ih => exact (h.originOf_copy _ _ hpair).trans (ih hsource)

/-- Every container was made of one that is no copy, since originals come before copies. -/
theorem exists_copiedTimes (h : Lineage copies created size context) (ref : Ref) :
    ∃ times source, Ref.CopiedTimes copies times ref source ∧ source ∉ copies.map Prod.fst := by
  induction ref using Nat.strong_induction_on with
  | _ ref ih =>
    by_cases hmem : ref ∈ copies.map Prod.fst
    · obtain ⟨⟨copy, original⟩, hpair, rfl⟩ := List.mem_map.1 hmem
      obtain ⟨times, source, htimes, hsource⟩ := ih original (h.later copy original hpair).1
      exact ⟨times + 1, source, .succ hpair htimes, hsource⟩
    · exact ⟨0, ref, .zero ref, hmem⟩

/-! ## Trials -/

/-- **A trial keeps the lineage**: its copies are new, and each is recorded with what its
original stands for, which is no copy. -/
theorem fork {heap : Heap} {value : Value} (h : Lineage copies created heap.size context)
    (hvalue : heap.Holds value) :
    Lineage (copies ++ (value.copyWithOrigins heap).1.2) created
      (value.copyWithOrigins heap).2.size (context.fork (value.copyWithOrigins heap).1.2) := by
  have hcopy := value.isCopy_atOnce heap
  have hle : heap.size ≤ (value.copyWithOrigins heap).2.size :=
    value.size_copyWithOrigins heap ▸ Nat.le_add_right _ _
  have hfresh : ∀ origin ∈ context.origins, origin.1 < heap.size := fun origin horigin =>
    h.lt_of_mem (h.recorded ▸ List.mem_map_of_mem horigin)
  have hnew : ∀ copy original, (copy, original) ∈ (value.copyWithOrigins heap).1.2 →
      original < heap.size ∧ heap.size ≤ copy ∧ copy < (value.copyWithOrigins heap).2.size :=
    fun copy original hpair =>
      ⟨hvalue original ((hcopy.mem_originals original).1 (List.mem_map_of_mem hpair)),
        (hcopy.mem_copies copy).1 (List.mem_map_of_mem hpair)⟩
  -- What was in the heap is a copy if it was one before.
  have hmem : ∀ ref, ref < heap.size → ref ∉ copies.map Prod.fst →
      ref ∉ (copies ++ (value.copyWithOrigins heap).1.2).map Prod.fst := by
    intro ref hlt hold hboth
    rw [List.map_append, List.mem_append] at hboth
    rcases hboth with hbefore | hcopied
    · exact hold hbefore
    · exact absurd hlt (Nat.not_lt.2 ((hcopy.mem_copies ref).1 hcopied).1)
  refine ⟨?recorded, ?nodup, ?later, ?source, ?originOf_copy, ?created⟩
  case recorded =>
    rw [origins_fork, List.map_append, List.map_append, h.recorded, List.map_map]
    rfl
  case nodup =>
    rw [List.map_append]
    refine h.nodup.append hcopy.nodup_copies fun ref hbefore hcopied => ?_
    exact absurd (h.lt_of_mem hbefore) (Nat.not_lt.2 ((hcopy.mem_copies ref).1 hcopied).1)
  case later =>
    intro copy original hpair
    rcases List.mem_append.1 hpair with hold | hcopied
    · obtain ⟨hlater, hlt⟩ := h.later copy original hold
      exact ⟨hlater, Nat.lt_of_lt_of_le hlt hle⟩
    · obtain ⟨horiginal, hcopy, hlt⟩ := hnew copy original hcopied
      exact ⟨Nat.lt_of_lt_of_le horiginal hcopy, hlt⟩
  case source =>
    intro origin horigin
    rw [origins_fork] at horigin
    rcases List.mem_append.1 horigin with hold | hcopied
    · obtain ⟨hlt, hsource⟩ := h.source origin hold
      exact ⟨Nat.lt_of_lt_of_le hlt hle, hmem _ hlt hsource⟩
    · -- An original that is a copy itself has been looked up, and what is found is none.
      obtain ⟨⟨copy, original⟩, hpair, rfl⟩ := List.mem_map.1 hcopied
      obtain ⟨hlt, hsource⟩ := h.originOf_source (hnew copy original hpair).1
      exact ⟨Nat.lt_of_lt_of_le hlt hle, hmem _ hlt hsource⟩
  case originOf_copy =>
    intro copy original hpair
    rcases List.mem_append.1 hpair with hold | hcopied
    · obtain ⟨hlater, hlt⟩ := h.later copy original hold
      rw [originOf_fork_of_lt hlt, originOf_fork_of_lt (Nat.lt_trans hlater hlt)]
      exact h.originOf_copy copy original hold
    · -- The original was in the heap before, and so the trial has not changed where it leads.
      have horiginal := (hnew copy original hcopied).1
      rw [originOf_fork_of_lt horiginal]
      exact originOf_fork_of_copied hfresh ((value.mem_copyWithOrigins heap).1 hcopied)
  case created =>
    intro ref hcreated
    obtain ⟨hlt, hold⟩ := h.created ref hcreated
    exact ⟨Nat.lt_of_lt_of_le hlt hle, hmem ref hlt hold⟩

end Lineage

/-- **Every context that is reached has its lineage.** -/
theorem Reached.lineage {options : Options} {base size : Nat} {copies : List (Ref × Ref)}
    {created : Set Ref} {context : Context}
    (h : Reached options base copies created size context) :
    Lineage copies created size context := by
  induction h with
  | start => exact .start options base
  | holding violations _ ih => exact ih.of_origins_eq rfl
  | visited _ ih => exact ih.of_origins_eq rfl
  | entered ref accessor _ ih => exact ih.of_origins_eq rfl
  | grown _ hle ih => exact ih.grown hle
  | fork _ hvalue ih => exact ih.fork hvalue

/-- Copies are recorded with the containers they come from. -/
structure Traced (copies : List (Ref × Ref)) (created : Set Ref) (context : Context) :
    Prop where
  /-- The copies made for the trials under way are recorded, and nothing else is. -/
  recorded : context.origins.map Prod.fst = copies.map Prod.fst
  /-- Each is recorded once. -/
  nodup : (context.origins.map Prod.fst).Nodup
  /-- What is recorded as an original is no copy. -/
  source : ∀ origin ∈ context.origins, origin.2 ∉ context.origins.map Prod.fst
  /-- What was made by so many copies in a row of a container that is no copy leads there. -/
  originOf_of_copiedTimes : ∀ times ref source, Ref.CopiedTimes copies times ref source →
    source ∉ context.origins.map Prod.fst → context.originOf ref = source
  /-- There is such a container for every one. -/
  exists_copiedTimes : ∀ ref, ∃ times source, Ref.CopiedTimes copies times ref source ∧
    source ∉ context.origins.map Prod.fst
  /-- What has been created since the check has begun stands for itself. -/
  originOf_of_created : ∀ ref ∈ created, context.originOf ref = ref

theorem Lineage.traced {copies : List (Ref × Ref)} {created : Set Ref} {size : Nat}
    {context : Context} (h : Lineage copies created size context) :
    context.Traced copies created where
  recorded := h.recorded
  nodup := h.recorded ▸ h.nodup
  source := by
    intro origin horigin
    rw [h.recorded]
    exact (h.source origin horigin).2
  originOf_of_copiedTimes := by
    intro times ref source htimes hsource
    rw [h.recorded] at hsource
    exact h.originOf_of_copiedTimes htimes hsource
  exists_copiedTimes := by
    intro ref
    rw [h.recorded]
    exact h.exists_copiedTimes ref
  originOf_of_created := fun ref hcreated => h.originOf_of_not_mem (h.created ref hcreated).2

end Context

/-! ## Every context of a check is reached -/

/-- The context of a session is reached from the start of a check. -/
def Session.Reached {σ : Type} (options : Options) (base : Nat) (session : Session σ) : Prop :=
  ∃ copies created,
    Context.Reached options base copies created session.world.heap.size session.context

/-- **The contexts of a run are reached**, if defaults and transforms keep to the heap. -/
def Discipline.reached {σ : Type} (host : Host σ) (options : Options) (base : Nat) :
    Discipline host (Invariant.inHeap.Keeps host) Nat where
  fits := fun _ I size context => I = Invariant.inHeap ∧
    ∃ copies created, Context.Reached options base copies created size context
  permitted := fun _ _ session => session.Reached options base
  exhaustible := True
  mono := fun ⟨hI, copies, created, h⟩ hle => ⟨hI, copies, _, h.grown hle⟩
  keeps := fun ⟨hI, _⟩ hgood => hI ▸ hgood
  permits := by
    rintro _ _ _ context world _ _ ⟨rfl, copies, created, h⟩ ⟨rfl, -⟩ - - violations
    exact ⟨copies, created, h.holding violations⟩
  spent := fun _ => trivial
  visited := fun ⟨hI, copies, created, h⟩ _ => ⟨hI, copies, created, h.visited⟩
  entered := by
    rintro _ _ _ context ref ⟨rfl, copies, created, h⟩ - - accessor
    exact ⟨rfl, copies, created, h.entered ref accessor⟩
  fork := by
    rintro _ _ _ context heap value ⟨rfl, copies, created, h⟩ ⟨rfl, hclosed⟩ howns
    refine ⟨Invariant.inHeap, (value.copyWithOrigins heap).2.size,
      ⟨rfl, _, created, h.fork (hclosed.holds howns)⟩, ⟨rfl, hclosed.copy value⟩,
      fun _ href => Heap.ref_lt_copy href, fun m hm heap' hholds => ⟨m, ?_, hholds⟩⟩
    -- After the trial its copies are left in the heap like anything else that is new.
    rw [Value.size_copyWithOrigins] at hm
    exact Nat.le_trans (Nat.le_add_right _ _) hm

/-- **Copies lead to the containers they come from**, through any depth of trials.  If
defaults and transforms keep to the heap, as all code does that cannot give containers up or
know any that are not there, every context of a check is reached step by step from the start;
and in a context that is reached, so many copies in a row lead back to the container of which
the first was made, and what has been created leads to itself. -/
theorem check_traced {σ : Type} (host : Host σ) (options : Options) (value : Value)
    (definition : Definition) (world : World σ)
    (hdefinition : definition.Throughout host (Invariant.inHeap.Keeps host))
    (hclosed : world.heap.Closed) (hvalue : world.heap.Holds value) :
    (∀ (depth : Nat) (refusal : ValidationError),
      checkGuarded host (fun _ _ session => session.Reached options world.heap.size) refusal
          depth value definition ⟨.start options, world⟩ =
        checkWithin host depth value definition ⟨.start options, world⟩) ∧
    ∀ copies created size context,
      Context.Reached options world.heap.size copies created size context →
        context.Traced copies created := by
  constructor
  · intro depth refusal
    have hfits : (Discipline.reached host options world.heap.size).fits depth Invariant.inHeap
        world.heap.size (.start options) := ⟨rfl, [], ∅, .start⟩
    have hsame := ((Discipline.reached host options world.heap.size).checkGuarded_eq refusal depth 0
      (fun _ => rfl) hfits (fun _ href => hvalue _ (.root href)) hdefinition ⟨rfl, hclosed⟩).1
    rwa [Nat.zero_add] at hsame
  · intro copies created size context h
    exact h.lineage.traced

/-- An array that holds itself, against alternatives inside an alternative.  The inner trial
works on container 3, made of 1, which was made of 0; in between, 2 was created. -/
theorem check_traced_nested :
    let inner : Definition := .node { either := some [.shorthand .number, .shorthand .array] }
    let definition : Definition := .node { either := some [inner, .shorthand .string] }
    let world : World Unit := ⟨{ containers := #[.array [.array 0]] }, ()⟩
    let context := ((Context.start {}).fork [(1, 0)]).fork [(3, 1)]
    checkGuarded default (fun _ _ session => session.Reached {} 1) .exhausted 4 (.array 0)
        definition ⟨.start {}, world⟩ =
      checkWithin default 4 (.array 0) definition ⟨.start {}, world⟩ ∧
    context.origins = [(1, 0), (3, 0)] ∧ context.originOf 3 = 0 ∧ context.originOf 2 = 2 := by
  intro inner definition world context
  have hholds : ∀ ref ∈ world.heap.reach (.array 0), ref < world.heap.size := by decide
  have hvalue : world.heap.Holds (.array 0) := fun ref hreach =>
    hholds ref (Heap.mem_reach_iff.2 hreach)
  have hclosed : world.heap.Closed := by
    rintro parent child ⟨part, hpart, href⟩
    match parent with
    | 0 =>
      obtain rfl : part = .array 0 := List.mem_singleton.1 hpart
      cases href
      exact (by decide : (0 : Nat) < 1)
    | other + 1 => cases hpart
  have hwritten : definition.Written := by
    refine Definition.written_node_iff.2 ⟨rfl, nofun, nofun, nofun, nofun, ?_⟩
    rintro _ ⟨⟩ d hd
    rcases List.mem_pair.1 hd with rfl | rfl
    · refine Definition.written_node_iff.2 ⟨rfl, nofun, nofun, nofun, nofun, ?_⟩
      rintro _ ⟨⟩ d hd
      rcases List.mem_pair.1 hd with rfl | rfl
      · exact .shorthand .number
      · exact .shorthand .array
    · exact .shorthand .string
  obtain ⟨hrun, htraced⟩ := check_traced (default : Host Unit) {} (.array 0) definition world
    ((hwritten.throughout _).imp fun _ h => h.keeps_inHeap) hclosed hvalue
  -- The inner copy is made when the outer one and another container are in the heap.
  let later : Heap := { containers := #[.array [.array 0], .array [.array 1], .array []] }
  have hlater : later.Holds (.array 1) := by
    have hall : ∀ ref ∈ later.reach (.array 1), ref < later.size := by decide
    exact fun ref hreach => hall ref (Heap.mem_reach_iff.2 hreach)
  have houter : Context.Reached {} 1 [(1, 0)] (∅ ∪ Set.Ico 2 3) later.size
      ((Context.start {}).fork [(1, 0)]) := .grown (.fork .start hvalue) (by decide)
  have hreached : Context.Reached {} 1 [(1, 0), (3, 1)] (∅ ∪ Set.Ico 2 3) 4 context :=
    houter.fork hlater
  have h := htraced _ _ _ _ hreached
  refine ⟨hrun 4 .exhausted, by decide, ?_, ?_⟩
  · exact h.originOf_of_copiedTimes 2 3 0
      (.succ (List.mem_cons_of_mem _ (List.mem_cons_self ..))
        (.succ (List.mem_cons_self ..) (.zero 0))) (by decide)
  · exact h.originOf_of_created 2 (.inr ⟨Nat.le_refl 2, Nat.lt_succ_self 2⟩)

end Conform
