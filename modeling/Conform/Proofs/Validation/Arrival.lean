import Conform.Proofs.Validation.Discipline
import Conform.Proofs.Validation.Trial

/-!
# Where a check arrives

A part of a check that begins in a given heap arrives in another with a value, and what is
known of the two may tie the one to the other: that the value leads to nothing twice in the
heap, say.  So the postcondition is of the heap and the value together, and steps in sequence
begin where the steps before have arrived.

On the way only good violations are reported: those that are added, and the one that the check
stops at if it stops at the first.

## Main definitions

* `Check.Arrives`: where a part of a check arrives from a heap.

## Main results

* `Check.Arrives.bind`, `Check.Arrives.forM`, `Check.Arrives.foldlM`: steps in sequence.
* `Check.Arrives.inside`, `Check.Arrives.visiting`: going in.
* `Check.Arrives.alternatives`: checking on the side, and the first clean alternative.
-/

namespace Conform.Check

variable {σ α β : Type}

/-- How a part of a check may end that began with the given violations. -/
inductive Arrived (good : Violation → Prop) (context : Context) (V : List Violation)
    (post : Heap → α → Prop) : EStateM.Result ValidationError (Session σ) α → Prop where
  | ok {a : α} {added : List Violation} {world : World σ} : (∀ violation ∈ added, good violation) →
      post world.heap a → Arrived good context V post (.ok a ⟨context.holding (V ++ added), world⟩)
  | error {fault : ValidationError} {session : Session σ} :
      (∀ violation ∈ fault.violations, good violation) →
      Arrived good context V post (.error fault session)

/-- From a heap, a part of a check arrives with a value in a heap so that the postcondition
holds of them, or ends with a fault; either way all that it reports is good. -/
def Arrives (good : Violation → Prop) (context : Context) (heap : Heap) (m : Check σ α)
    (post : Heap → α → Prop) : Prop :=
  ∀ (V : List Violation) (env : σ),
    Arrived good context V post (m ⟨context.holding V, ⟨heap, env⟩⟩)

variable {good : Violation → Prop} {context : Context} {heap : Heap}

/-- Arrived with no violations added. -/
theorem Arrived.ok_nil {V : List Violation} {a : α} {world : World σ} {post : Heap → α → Prop}
    (h : post world.heap a) : Arrived good context V post (.ok a ⟨context.holding V, world⟩) := by
  have hok : Arrived good context V post (.ok a ⟨context.holding (V ++ []), world⟩) := .ok nofun h
  rwa [List.append_nil] at hok

theorem Arrived.imp {V : List Violation} {post post' : Heap → α → Prop}
    {r : EStateM.Result ValidationError (Session σ) α} (h : Arrived good context V post r)
    (himp : ∀ heap a, post heap a → post' heap a) : Arrived good context V post' r := by
  rcases h with ⟨hadded, hpost⟩ | hfault
  · exact .ok hadded (himp _ _ hpost)
  · exact .error hfault

namespace Arrives

variable {post : Heap → α → Prop} {m : Check σ α}

/-- Where a part of a check that is completed has arrived. -/
theorem of_ok {session after : Session σ} {a : α}
    (h : Arrives good session.context session.world.heap m post) (hok : m session = .ok a after) :
    post after.world.heap a := by
  have harrived := h session.context.violations session.world.env
  change Arrived _ _ _ _ (m session) at harrived
  rw [hok] at harrived
  rcases harrived with ⟨-, hpost⟩
  exact hpost

/-! ## Steps -/

theorem imp {post' : Heap → α → Prop} (h : Arrives good context heap m post)
    (himp : ∀ heap' a, post heap' a → post' heap' a) : Arrives good context heap m post' :=
  fun V env => (h V env).imp himp

theorem pure {a : α} (h : post heap a) : Arrives good context heap (pure a : Check σ α) post :=
  fun _ _ => .ok_nil h

/-- The faults of definitions report nothing. -/
theorem throw {fault : ValidationError} (h : fault.violations = []) :
    Arrives good context heap (throw fault : Check σ α) post := by
  refine fun _ _ => .error fun violation hmem => ?_
  rw [h] at hmem
  cases hmem

theorem ofRun {m : Run σ α} (h : ∀ env, post (m ⟨heap, env⟩).2.heap (m ⟨heap, env⟩).1) :
    Arrives good context heap (ofRun m) post :=
  fun _ env => .ok_nil (h env)

theorem changeHeap {f : Heap → Heap} {post : Heap → Unit → Prop} (h : post (f heap) ()) :
    Arrives good context heap (changeHeap f : Check σ Unit) post :=
  ofRun fun _ => h

/-- **Steps in sequence** begin where the steps before have arrived. -/
theorem bind {f : α → Check σ β} {post' : Heap → β → Prop} (hm : Arrives good context heap m post)
    (hf : ∀ heap' a, post heap' a → Arrives good context heap' (f a) post') :
    Arrives good context heap (m >>= f) post' := by
  intro V env
  have hfirst := hm V env
  simp only [Bind.bind, EStateM.bind]
  revert hfirst
  generalize m ⟨context.holding V, ⟨heap, env⟩⟩ = r
  rintro (@⟨a, added, ⟨heap', env'⟩, hadded, hpost⟩ | hfault)
  · have hrest := hf heap' a hpost (V ++ added) env'
    simp only
    revert hrest
    generalize f a ⟨context.holding (V ++ added), ⟨heap', env'⟩⟩ = s
    rintro (⟨hmore, hpost'⟩ | hfault)
    · rw [List.append_assoc]
      refine .ok (fun violation hmem => ?_) hpost'
      exact (List.mem_append.1 hmem).elim (hadded violation) (hmore violation)
    · exact .error hfault
  · exact .error hfault

/-- Whatever was arrived with, the value is given back. -/
theorem returning {post' : Heap → β → Prop} {b : β}
    (hm : Arrives good context heap m fun heap' _ => post' heap' b) :
    Arrives good context heap (do let _ ← m; return b) post' :=
  hm.bind fun _ _ h => pure h

/-- A first step that reads the heap. -/
theorem afterHeap {f : Heap → α} {g : α → Check σ β} {post : Heap → β → Prop}
    (h : Arrives good context heap (g (f heap)) post) :
    Arrives good context heap (readHeap f >>= g) post :=
  fun V env => h V env

/-- A first step that reads the context, though not its violations. -/
theorem afterContext {f : Context → α} {g : α → Check σ β} {post : Heap → β → Prop}
    (hf : ∀ V, f (context.holding V) = f context)
    (h : Arrives good context heap (g (f context)) post) :
    Arrives good context heap (readContext f >>= g) post := by
  intro V env
  have hread : (readContext f >>= g : Check σ β) ⟨context.holding V, ⟨heap, env⟩⟩ =
      g (f (context.holding V)) ⟨context.holding V, ⟨heap, env⟩⟩ := rfl
  rw [hread, hf]
  exact h V env

/-- To produce definitions leaves the heap as it is. -/
theorem ofForcing {m : Forcing σ α} (h : ∀ env a env', m env = .ok a env' → post heap a) :
    Arrives good context heap (Check.ofForcing m) post := by
  have hrun : Arrives good context heap (Check.ofRun (Run.ofForcing m)) fun heap' outcome =>
      ∀ a, outcome = .ok a → post heap' a := by
    refine ofRun fun env a heq => ?_
    rw [Run.heap_ofForcing]
    rw [Run.fst_ofForcing] at heq
    obtain ⟨env', hok⟩ := Forcing.outcome_eq_ok.1 heq
    exact h env a env' hok
  refine hrun.bind fun heap' outcome houtcome => ?_
  rcases outcome with fault | a
  · exact throw rfl
  · exact pure (houtcome a rfl)

theorem ite {c : Prop} [Decidable c] {m' : Check σ α} (h : c → Arrives good context heap m post)
    (h' : ¬ c → Arrives good context heap m' post) :
    Arrives good context heap (if c then m else m') post := by
  split
  · next hc => exact h hc
  · next hc => exact h' hc

/-- **A loop** whose steps keep an invariant of the heap. -/
theorem forM (inv : Heap → Prop) {f : β → Check σ PUnit} {xs : List β}
    (h : ∀ x ∈ xs, ∀ heap, inv heap → Arrives good context heap (f x) fun heap' _ => inv heap')
    (hheap : inv heap) : Arrives good context heap (xs.forM f) fun heap' _ => inv heap' := by
  induction xs generalizing heap with
  | nil => exact pure hheap
  | cons x xs ih =>
    exact (h x (List.mem_cons_self ..) heap hheap).bind fun heap' _ hheap' =>
      ih (fun y hy => h y (List.mem_cons_of_mem _ hy)) hheap'

/-- **A fold** whose steps keep an invariant of the heap and the value. -/
theorem foldlM (inv : Heap → α → Prop) {f : α → β → Check σ α} {xs : List β} {a : α}
    (h : ∀ x ∈ xs, ∀ heap a, inv heap a → Arrives good context heap (f a x) inv)
    (hheap : inv heap a) : Arrives good context heap (xs.foldlM f a) inv := by
  induction xs generalizing heap a with
  | nil => exact pure hheap
  | cons x xs ih =>
    rw [List.foldlM_cons]
    exact (h x (List.mem_cons_self ..) heap a hheap).bind fun heap' b hheap' =>
      ih (fun y hy => h y (List.mem_cons_of_mem _ hy)) hheap'

/-- A step that may be refused. -/
theorem guarding {permitted : Session σ → Prop} {refusal : ValidationError}
    (hrefusal : ∀ violation ∈ refusal.violations, good violation)
    (h : ∀ V env, permitted ⟨context.holding V, ⟨heap, env⟩⟩ →
      Arrived good context V post (m ⟨context.holding V, ⟨heap, env⟩⟩)) :
    Arrives good context heap (guarding permitted refusal m) post := by
  intro V env
  unfold Check.guarding
  split
  · next hpermitted => exact h V env hpermitted
  · exact .error hrefusal

/-! ## Complaints -/

section Complaints

variable {post : Heap → Unit → Prop} {complaint : Complaint}

theorem add {violation : Violation} (hgood : good violation) (h : post heap ()) :
    Arrives good context heap (add violation : Check σ Unit) post := by
  intro V env
  by_cases hasserting : context.asserting = true
  · rw [add_of_asserting violation ⟨context.holding V, ⟨heap, env⟩⟩ hasserting]
    refine .error fun other hmem => ?_
    obtain rfl := List.mem_singleton.1 hmem
    exact hgood
  · rw [add_of_not_asserting violation ⟨context.holding V, ⟨heap, env⟩⟩ hasserting]
    refine .ok (fun other hmem => ?_) h
    obtain rfl := List.mem_singleton.1 hmem
    exact hgood

theorem report {inner : List (List Violation)}
    (hgood : good (.ofComplaint context.pathText complaint inner)) (h : post heap ()) :
    Arrives good context heap (report complaint inner : Check σ Unit) post :=
  afterContext (fun _ => rfl) (add hgood h)

theorem demand {holds : Bool} (hgood : good (.ofComplaint context.pathText complaint []))
    (h : post heap ()) : Arrives good context heap (demand holds complaint : Check σ Unit) post :=
  ite (fun _ => pure h) fun _ => report hgood h

theorem demandAt {accessor : Accessor} {holds : Bool}
    (hgood : good (.ofComplaint (context.pathText ++ accessor.token) complaint []))
    (h : post heap ()) :
    Arrives good context heap (demandAt accessor holds complaint : Check σ Unit) post :=
  ite (fun _ => pure h) fun _ => afterContext (fun _ => rfl) (add hgood h)

end Complaints

/-! ## Going in -/

theorem bracket {enter leave : Context → Context} {inner : Context}
    (h : Arrives good inner heap m post) (henter : ∀ V, enter (context.holding V) = inner.holding V)
    (hleave : ∀ V, leave (inner.holding V) = context.holding V) :
    Arrives good context heap (bracket enter leave m) post := by
  intro V env
  have hinner := h V env
  simp only [Check.bracket, henter]
  revert hinner
  generalize m ⟨inner.holding V, ⟨heap, env⟩⟩ = r
  rintro (⟨hadded, hpost⟩ | hfault)
  · simp only [hleave]
    exact .ok hadded hpost
  · exact .error hfault

theorem under {accessor : Accessor}
    (h : Arrives good { context with path := accessor :: context.path } heap m post) :
    Arrives good context heap (under accessor m) post :=
  bracket h (fun _ => rfl) (fun _ => rfl)

/-- Into a container, unless the way has come through it. -/
theorem inside {ref : Ref} {m : Check σ Unit} {post : Heap → Unit → Prop}
    (hcycle : context.originOf ref ∈ context.ancestors →
      Arrives good context heap (Check.report .cycle [] : Check σ Unit) post)
    (h : context.originOf ref ∉ context.ancestors → Arrives good
      { context with ancestors := context.originOf ref :: context.ancestors } heap m post) :
    Arrives good context heap (inside ref m) post :=
  afterContext (f := fun c => c.originOf ref) (fun _ => rfl) <|
    afterContext (f := fun c => c.ancestors) (fun _ => rfl) <|
      ite hcycle fun hnew => bracket (h hnew) (fun _ => rfl) (fun _ => rfl)

/-- To a definition, unless too many are under way. -/
theorem visiting (h : ¬ maxNesting ≤ context.nesting → Arrives good context.visited heap m post) :
    Arrives good context heap (visiting m) post := by
  refine afterContext (f := Context.nesting) (fun _ => rfl) (ite (fun _ => ?_) fun hfew => ?_)
  · exact afterContext (f := Context.pathText) (fun _ => rfl) (throw rfl)
  · exact bracket (h hfew) (fun _ => rfl) (fun _ => rfl)

/-! ## Alternatives -/

section Alternatives

variable {recurse : Recurse σ} {value : Value} (inv : Heap → Prop)

/-- A trial arrives with what the check of the copy reports. -/
theorem tryAlternative {alternative : Definition}
    (h : Arrives good (context.fork (value.copyWithOrigins heap).1.2)
      (value.copyWithOrigins heap).2 (recurse (value.copyWithOrigins heap).1.1 alternative)
      fun heap' _ => inv heap') :
    Arrives good context heap (tryAlternative recurse value alternative) fun heap' violations =>
      inv heap' ∧ ∀ violation ∈ violations, good violation := by
  intro V env
  have htrial := h [] env
  rw [Context.holding_fork] at htrial
  rw [tryAlternative_apply]
  simp only [trial, Context.fork_holding]
  revert htrial
  generalize recurse (value.copyWithOrigins heap).1.1 alternative _ = r
  rintro (⟨hadded, hinv⟩ | hfault)
  · exact .ok_nil ⟨hinv, hadded⟩
  · exact .error hfault

/-- **Alternatives in turn** keep an invariant while they are tried, and from it the check of
the first that is clean begins. -/
theorem alternatives {definitions : List Definition} {post : Heap → Value → Prop}
    (htry : ∀ d ∈ definitions, ∀ heap, inv heap →
      Arrives good (context.fork (value.copyWithOrigins heap).1.2) (value.copyWithOrigins heap).2
        (recurse (value.copyWithOrigins heap).1.1 d) fun heap' _ => inv heap')
    (hrun : ∀ d ∈ definitions, ∀ heap, inv heap →
      Arrives good context heap (recurse value d) post)
    (hnone : ∀ inner : List (List Violation), (∀ violations ∈ inner, ∀ violation ∈ violations,
        good violation) → ∀ heap, inv heap →
      good (.ofComplaint context.pathText .noAlternative inner) ∧ post heap value)
    (failures : List (List Violation))
    (hfailures : ∀ violations ∈ failures, ∀ violation ∈ violations, good violation)
    (hheap : inv heap) :
    Arrives good context heap (alternatives recurse value failures definitions) post := by
  induction definitions generalizing failures heap with
  | nil =>
    obtain ⟨hgood, hpost⟩ := hnone failures hfailures heap hheap
    exact returning (report hgood hpost)
  | cons first rest ih =>
    have hfirst : first ∈ first :: rest := List.mem_cons_self ..
    refine (tryAlternative inv (htry first hfirst heap hheap)).bind fun heap' violations htried =>
      ite (fun _ => hrun first hfirst heap' htried.1) fun _ => ?_
    refine ih (fun d hd => htry d (List.mem_cons_of_mem _ hd))
      (fun d hd => hrun d (List.mem_cons_of_mem _ hd)) _ (fun found hfound => ?_) htried.1
    rcases List.mem_append.1 hfound with hfound | hfound
    · exact hfailures found hfound
    · obtain rfl := List.mem_singleton.1 hfound
      exact htried.2

end Alternatives

end Arrives

end Conform.Check
