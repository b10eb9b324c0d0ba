import Conform.Proofs.Validation.Discipline
import Conform.Proofs.Validation.Trial

/-!
# What a check ensures

A part of a check is run on terms: a condition on the heap that has to hold throughout,
and the faults that it may end with.  On such terms it ensures a postcondition when, from
any heap on which the condition holds, it ends with a value and added violations of which
the postcondition holds, or with one of the faults, and the condition holds again either
way.

Where no fault is admitted, the check comes to a value; where all are, nothing is said of
the faults.

## Main definitions

* `Terms`: a condition on the heap, and the faults admitted.
* `Terms.Ensures`: the postcondition of a part of a check.

## Main results

* `Terms.Ensures.bind`, `Terms.Ensures.forM`, `Terms.Ensures.foldlM`: steps in sequence.
* `Terms.Ensures.inside`, `Terms.Ensures.visiting`: going in.
* `Terms.Ensures.tryAlternative`, `Terms.Ensures.alternatives`: checking on the side.
-/

namespace Conform

/-- The terms on which a check is run. -/
structure Terms where
  /-- What holds of the heap throughout. -/
  holds : Heap → Prop
  /-- The faults with which the check may end. -/
  faulty : ValidationError → Prop

namespace Terms

open Check

variable {σ α β γ : Type}

/-- How a part of a check may end that began with the given violations. -/
inductive Ends (T : Terms) (context : Context) (V : List Violation)
    (Q : α → List Violation → Prop) : EStateM.Result ValidationError (Session σ) α → Prop where
  | ok {a : α} {added : List Violation} {world : World σ} : T.holds world.heap → Q a added →
      Ends T context V Q (.ok a ⟨context.holding (V ++ added), world⟩)
  | error {fault : ValidationError} {session : Session σ} : T.holds session.world.heap →
      T.faulty fault → Ends T context V Q (.error fault session)

/-- From any heap on which the condition holds, a part of a check ends on the terms, and
if it ends with a value, the postcondition holds of it and of the violations added. -/
def Ensures (T : Terms) (context : Context) (m : Check σ α) (Q : α → List Violation → Prop) :
    Prop :=
  ∀ (V : List Violation) (world : World σ), T.holds world.heap →
    T.Ends context V Q (m ⟨context.holding V, world⟩)

variable {T : Terms} {context : Context} {P Q : α → List Violation → Prop}

/-- Ended with no violations added. -/
theorem Ends.ok_nil {V : List Violation} {a : α} {world : World σ} (hholds : T.holds world.heap)
    (ha : Q a []) : T.Ends context V Q (.ok a ⟨context.holding V, world⟩) := by
  have hok : T.Ends context V Q (.ok a ⟨context.holding (V ++ []), world⟩) := .ok hholds ha
  rwa [List.append_nil] at hok

theorem Ends.imp {V : List Violation} {r : EStateM.Result ValidationError (Session σ) α}
    (h : T.Ends context V P r) (himp : ∀ a added, P a added → Q a added) :
    T.Ends context V Q r := by
  cases h with
  | ok hholds ha => exact .ok hholds (himp _ _ ha)
  | error hholds hfault => exact .error hholds hfault

/-- What began with more violations began with fewer. -/
theorem Ends.weaken {V added : List Violation}
    {r : EStateM.Result ValidationError (Session σ) α}
    (h : T.Ends context (V ++ added) (fun a more => Q a (added ++ more)) r) :
    T.Ends context V Q r := by
  cases h with
  | ok hholds ha =>
    rw [List.append_assoc]
    exact .ok hholds ha
  | error hholds hfault => exact .error hholds hfault

/-- However it ends, the condition holds. -/
theorem Ends.holds_final {V : List Violation} {r : EStateM.Result ValidationError (Session σ) α}
    (h : T.Ends context V Q r) : T.holds (final r).world.heap := by
  cases h with
  | ok hholds _ => exact hholds
  | error hholds _ => exact hholds

namespace Ensures

/-! ## Steps -/

theorem imp {m : Check σ α} (h : T.Ensures context m P)
    (himp : ∀ a added, P a added → Q a added) : T.Ensures context m Q :=
  fun V world hholds => (h V world hholds).imp himp

theorem pure {a : α} (h : Q a []) : T.Ensures context (pure a : Check σ α) Q :=
  fun _ _ hholds => .ok_nil hholds h

theorem throw {fault : ValidationError} (h : T.faulty fault) :
    T.Ensures context (throw fault : Check σ α) Q :=
  fun _ _ hholds => .error hholds h

theorem ofRun {m : Run σ α}
    (h : ∀ world, T.holds world.heap → T.holds (m world).2.heap ∧ Q (m world).1 []) :
    T.Ensures context (ofRun m) Q :=
  fun _ world hholds => .ok_nil (h world hholds).1 (h world hholds).2

theorem readHeap {f : Heap → α} (h : ∀ heap, T.holds heap → Q (f heap) []) :
    T.Ensures context (readHeap f : Check σ α) Q :=
  fun _ world hholds => .ok_nil hholds (h world.heap hholds)

/-- What is read off a context must not hang on its violations. -/
theorem readContext {f : Context → α} (hf : ∀ V, f (context.holding V) = f context)
    (h : Q (f context) []) : T.Ensures context (readContext f : Check σ α) Q := by
  intro V world hholds
  simp only [Check.readContext, hf]
  exact .ok_nil hholds h

theorem changeHeap {f : Heap → Heap} {Q : Unit → List Violation → Prop}
    (hheap : ∀ heap, T.holds heap → T.holds (f heap)) (h : Q () []) :
    T.Ensures context (changeHeap f : Check σ Unit) Q :=
  ofRun fun world hholds => ⟨hheap world.heap hholds, h⟩

/-- **Steps in sequence** add their violations one after the other. -/
theorem bind {m : Check σ α} {f : α → Check σ β} {R : β → List Violation → Prop}
    (hm : T.Ensures context m P)
    (hf : ∀ a added, P a added → T.Ensures context (f a) fun b more => R b (added ++ more)) :
    T.Ensures context (m >>= f) R := by
  intro V world hholds
  have hfirst := hm V world hholds
  simp only [Bind.bind, EStateM.bind]
  revert hfirst
  generalize m ⟨context.holding V, world⟩ = r
  intro hfirst
  cases hfirst with
  | @ok a added world' hholds' ha => exact (hf a added ha (V ++ added) world' hholds').weaken
  | error hholds' hfault => exact .error hholds' hfault

/-- A first step that adds no violations. -/
theorem after {m : Check σ α} {f : α → Check σ β} {R : β → List Violation → Prop}
    {P : α → Prop} (hm : T.Ensures context m fun a added => added = [] ∧ P a)
    (hf : ∀ a, P a → T.Ensures context (f a) R) : T.Ensures context (m >>= f) R :=
  hm.bind fun a added h => by
    obtain ⟨rfl, ha⟩ := h
    exact hf a ha

/-- Whatever was added, the value is given back. -/
theorem returning {m : Check σ α} {R : β → List Violation → Prop} {b : β}
    (hm : T.Ensures context m fun _ added => R b added) :
    T.Ensures context (do let _ ← m; return b) R :=
  hm.bind fun _ added h => pure (by rwa [List.append_nil])

theorem ofForcing {m : Forcing σ α} (hok : ∀ env a env', m env = .ok a env' → Q a [])
    (herror : ∀ env fault env', m env = .error fault env' → T.faulty (.definition fault)) :
    T.Ensures context (Check.ofForcing m) Q := by
  refine after (P := fun outcome => (∀ a, outcome = .ok a → Q a []) ∧
    ∀ fault, outcome = .error fault → T.faulty (.definition fault))
    (ofRun fun world hholds => ⟨?_, rfl, ?_⟩) fun outcome h => ?_
  · rwa [Run.heap_ofForcing]
  · rw [Run.fst_ofForcing]
    unfold Forcing.outcome
    cases hm : m world.env with
    | ok a env' => exact ⟨fun _ heq => Except.ok.inj heq ▸ hok _ a _ hm, nofun⟩
    | error fault env' => exact ⟨nofun, fun _ heq => Except.error.inj heq ▸ herror _ fault _ hm⟩
  · cases outcome with
    | ok a => exact pure (h.1 a rfl)
    | error fault => exact throw (h.2 fault rfl)

theorem ite {c : Prop} [Decidable c] {m m' : Check σ α} (h : c → T.Ensures context m Q)
    (h' : ¬ c → T.Ensures context m' Q) : T.Ensures context (if c then m else m') Q := by
  split
  · next hc => exact h hc
  · next hc => exact h' hc

/-- **A loop** adds what its steps add, in order. -/
theorem forM {f : β → Check σ PUnit} {P : β → List Violation → Prop} {xs : List β}
    (h : ∀ x ∈ xs, T.Ensures context (f x) fun _ added => P x added) :
    T.Ensures context (xs.forM f) fun _ added =>
      ∃ parts, List.Forall₂ P xs parts ∧ added = parts.flatten := by
  induction xs with
  | nil => exact pure ⟨[], .nil, rfl⟩
  | cons x xs ih =>
    refine (h x (List.mem_cons_self ..)).bind fun _ added hx => ?_
    refine (ih fun y hy => h y (List.mem_cons_of_mem _ hy)).imp fun _ more hmore => ?_
    obtain ⟨parts, hparts, rfl⟩ := hmore
    exact ⟨added :: parts, .cons hx hparts, rfl⟩

/-- **A fold** whose steps keep something of the value adds what they add, in order. -/
theorem foldlM (keeps : α → Prop) {f : α → β → Check σ α} {xs : List β}
    {Ps : List (List Violation → Prop)}
    (h : List.Forall₂ (fun x P => ∀ a, keeps a →
      T.Ensures context (f a x) fun b added => keeps b ∧ P added) xs Ps) {a : α} (ha : keeps a) :
    T.Ensures context (xs.foldlM f a) fun b added =>
      keeps b ∧ ∃ parts, List.Forall₂ (fun P part => P part) Ps parts ∧ added = parts.flatten := by
  induction h generalizing a with
  | nil => exact pure ⟨ha, [], .nil, rfl⟩
  | cons hx _ ih =>
    rw [List.foldlM_cons]
    refine (hx a ha).bind fun b added hb => (ih hb.1).imp fun c more hmore => ?_
    obtain ⟨hc, parts, hparts, rfl⟩ := hmore
    exact ⟨hc, added :: parts, .cons hb.2 hparts, rfl⟩

/-! ## Violations -/

theorem add {violation : Violation} {Q : Unit → List Violation → Prop}
    (hassert : context.asserting = true → T.faulty (.assertion violation))
    (h : context.asserting = false → Q () [violation]) :
    T.Ensures context (add violation : Check σ Unit) Q := by
  intro V world hholds
  by_cases hasserting : context.asserting = true
  · rw [add_of_asserting violation ⟨context.holding V, world⟩ hasserting]
    exact .error hholds (hassert hasserting)
  · rw [add_of_not_asserting violation ⟨context.holding V, world⟩ hasserting]
    exact .ok hholds (h (Bool.eq_false_iff.2 hasserting))

theorem report {complaint : Complaint} {inner : List (List Violation)}
    {Q : Unit → List Violation → Prop}
    (hassert : context.asserting = true →
      T.faulty (.assertion (.ofComplaint context.pathText complaint inner)))
    (h : context.asserting = false → Q () [.ofComplaint context.pathText complaint inner]) :
    T.Ensures context (report complaint inner : Check σ Unit) Q :=
  after (P := fun path => path = context.pathText)
    (readContext (fun _ => rfl) ⟨rfl, rfl⟩) fun _ hpath => by subst hpath; exact add hassert h

theorem reportAt {accessor : Accessor} {complaint : Complaint}
    {Q : Unit → List Violation → Prop}
    (hassert : context.asserting = true →
      T.faulty (.assertion (.ofComplaint (context.pathText ++ accessor.token) complaint [])))
    (h : context.asserting = false →
      Q () [.ofComplaint (context.pathText ++ accessor.token) complaint []]) :
    T.Ensures context (reportAt accessor complaint : Check σ Unit) Q :=
  after (P := fun path => path = context.pathText)
    (readContext (fun _ => rfl) ⟨rfl, rfl⟩) fun _ hpath => by subst hpath; exact add hassert h

theorem demand {holds : Bool} {complaint : Complaint} {Q : Unit → List Violation → Prop}
    (hassert : context.asserting = true →
      T.faulty (.assertion (.ofComplaint context.pathText complaint [])))
    (htrue : holds = true → Q () [])
    (hfalse : holds = false → Q () [.ofComplaint context.pathText complaint []]) :
    T.Ensures context (demand holds complaint : Check σ Unit) Q :=
  ite (fun h => pure (htrue h)) fun h => report hassert fun _ => hfalse (Bool.eq_false_iff.2 h)

theorem demandAt {accessor : Accessor} {holds : Bool} {complaint : Complaint}
    {Q : Unit → List Violation → Prop}
    (hassert : context.asserting = true →
      T.faulty (.assertion (.ofComplaint (context.pathText ++ accessor.token) complaint [])))
    (htrue : holds = true → Q () [])
    (hfalse : holds = false →
      Q () [.ofComplaint (context.pathText ++ accessor.token) complaint []]) :
    T.Ensures context (demandAt accessor holds complaint : Check σ Unit) Q :=
  ite (fun h => pure (htrue h)) fun h => reportAt hassert fun _ => hfalse (Bool.eq_false_iff.2 h)

/-! ## Going in -/

theorem bracket {enter leave : Context → Context} {inner : Context} {m : Check σ α}
    (h : T.Ensures inner m Q) (henter : ∀ V, enter (context.holding V) = inner.holding V)
    (hleave : ∀ V, leave (inner.holding V) = context.holding V) :
    T.Ensures context (bracket enter leave m) Q := by
  intro V world hholds
  have hinner := h V world hholds
  simp only [Check.bracket, henter]
  revert hinner
  generalize m ⟨inner.holding V, world⟩ = r
  intro hinner
  cases hinner with
  | ok hholds' ha =>
    simp only [hleave]
    exact .ok hholds' ha
  | error hholds' hfault => exact .error hholds' hfault

theorem under {accessor : Accessor} {m : Check σ α}
    (h : T.Ensures { context with path := accessor :: context.path } m Q) :
    T.Ensures context (under accessor m) Q :=
  bracket h (fun _ => rfl) (fun _ => rfl)

/-- Into a container, unless the way has come through it. -/
theorem inside {ref : Ref} {m : Check σ Unit} {Q : Unit → List Violation → Prop}
    (hcycle : context.originOf ref ∈ context.ancestors →
      T.Ensures context (Check.report .cycle [] : Check σ Unit) Q)
    (h : context.originOf ref ∉ context.ancestors →
      T.Ensures { context with ancestors := context.originOf ref :: context.ancestors } m Q) :
    T.Ensures context (inside ref m) Q := by
  refine after (P := fun original => original = context.originOf ref)
    (readContext (f := fun c => c.originOf ref) (fun _ => rfl) ⟨rfl, rfl⟩) fun _ horiginal => ?_
  subst horiginal
  refine after (P := fun ancestors => ancestors = context.ancestors)
    (readContext (f := fun c => c.ancestors) (fun _ => rfl) ⟨rfl, rfl⟩) fun _ hancestors => ?_
  subst hancestors
  exact ite hcycle fun hnew => bracket (h hnew) (fun _ => rfl) (fun _ => rfl)

/-- To a definition, unless too many are under way. -/
theorem visiting {m : Check σ α}
    (hmany : maxNesting ≤ context.nesting →
      T.faulty (.definition (.leftRecursion context.pathText)))
    (h : ¬ maxNesting ≤ context.nesting → T.Ensures context.visited m Q) :
    T.Ensures context (visiting m) Q := by
  refine after (P := fun nesting => nesting = context.nesting)
    (readContext (fun _ => rfl) ⟨rfl, rfl⟩) fun _ hnesting => ?_
  subst hnesting
  refine ite (fun hle => ?_) fun hfew => bracket (h hfew) (fun _ => rfl) (fun _ => rfl)
  refine after (P := fun path => path = context.pathText)
    (readContext (fun _ => rfl) ⟨rfl, rfl⟩) fun _ hpath => ?_
  subst hpath
  exact throw (hmany hle)

/-! ## Alternatives -/

/-- **A trial** is run on terms of its own, which begin with the copy and lead back.  What
it adds is what it comes to. -/
theorem tryAlternative {recurse : Recurse σ} {value : Value} {alternative : Definition}
    {Q : List Violation → List Violation → Prop}
    (h : ∀ heap, T.holds heap → ∃ T' : Terms, T'.holds (value.copyWithOrigins heap).2 ∧
      (∀ heap', T'.holds heap' → T.holds heap') ∧ (∀ fault, T'.faulty fault → T.faulty fault) ∧
      T'.Ensures (context.fork (value.copyWithOrigins heap).1.2)
        (recurse (value.copyWithOrigins heap).1.1 alternative) fun _ added => Q added []) :
    T.Ensures context (tryAlternative recurse value alternative) Q := by
  intro V world hholds
  obtain ⟨T', hcopy, hback, hfaulty, hensures⟩ := h world.heap hholds
  have htrial := hensures [] ⟨(value.copyWithOrigins world.heap).2, world.env⟩ hcopy
  rw [Context.holding_fork] at htrial
  rw [tryAlternative_apply]
  simp only [trial, Context.fork_holding]
  revert htrial
  generalize recurse (value.copyWithOrigins world.heap).1.1 alternative _ = r
  intro htrial
  cases htrial with
  | ok hholds' hviolations => exact .ok_nil (hback _ hholds') hviolations
  | error hholds' hfault => exact .error (hback _ hholds') (hfaulty _ hfault)

/-- **Alternatives in turn**: the first whose trial finds nothing is taken, and if all find
something, there is one complaint, which keeps what each of them has found. -/
theorem alternatives_inner {recurse : Recurse σ} {value : Value} {definitions : List Definition}
    (tried : Definition → List Violation → Prop) {Q : Value → List Violation → Prop}
    (htry : ∀ d ∈ definitions, T.Ensures context (Check.tryAlternative recurse value d)
      fun violations added => added = [] ∧ tried d violations)
    (hclean : ∀ d ∈ definitions, tried d [] → T.Ensures context (recurse value d) Q)
    (failures : List (List Violation))
    (hnone : ∀ inner, List.Forall₂ (fun d violations => violations ≠ [] ∧ tried d violations)
        definitions inner →
      T.Ensures context (Check.report .noAlternative (failures ++ inner) : Check σ Unit)
        fun _ added => Q value added) :
    T.Ensures context (alternatives recurse value failures definitions) Q := by
  induction definitions generalizing failures with
  | nil =>
    have hreport := hnone [] .nil
    rw [List.append_nil] at hreport
    exact returning hreport
  | cons first rest ih =>
    have hfirst : first ∈ first :: rest := List.mem_cons_self ..
    refine after (htry first hfirst) fun violations htried =>
      ite (fun hempty => ?_) fun hfound => ?_
    · exact hclean first hfirst (List.isEmpty_iff.1 hempty ▸ htried)
    · refine ih (fun d hd => htry d (List.mem_cons_of_mem _ hd))
        (fun d hd => hclean d (List.mem_cons_of_mem _ hd)) _ fun inner hinner => ?_
      rw [← List.append_cons]
      exact hnone _ (.cons ⟨fun h => hfound (List.isEmpty_iff.2 h), htried⟩ hinner)

/-- Alternatives in turn, where it does not matter what the complaint keeps. -/
theorem alternatives {recurse : Recurse σ} {value : Value} {definitions : List Definition}
    (tried : Definition → List Violation → Prop) {Q : Value → List Violation → Prop}
    (htry : ∀ d ∈ definitions, T.Ensures context (Check.tryAlternative recurse value d)
      fun violations added => added = [] ∧ tried d violations)
    (hclean : ∀ d ∈ definitions, tried d [] → T.Ensures context (recurse value d) Q)
    (hnone : (∀ d ∈ definitions, ∃ violations, violations ≠ [] ∧ tried d violations) →
      ∀ inner, T.Ensures context (Check.report .noAlternative inner : Check σ Unit)
        fun _ added => Q value added) (failures : List (List Violation)) :
    T.Ensures context (alternatives recurse value failures definitions) Q := by
  refine alternatives_inner tried htry hclean failures fun inner hinner => hnone ?_ _
  intro d hd
  obtain ⟨i, hi, rfl⟩ := List.mem_iff_getElem.1 hd
  have hlt : i < inner.length := hinner.length_eq ▸ hi
  exact ⟨inner[i], hinner.get hi hlt⟩

end Ensures

end Terms

end Conform
