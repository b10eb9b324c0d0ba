import Conform.Proofs.Validation.Frame
import Conform.Proofs.Validation.Postcondition

/-!
# Checks that come to a verdict

A check judges a statement about a value when it comes to an end without a fault, gives
the value back, leaves every container as it was, and complains exactly if the statement
does not hold.  This is said of checks that collect their violations; one that stops at
the first would end with it.

Judging is a postcondition, so the rules here are those for postconditions, with what is
added read as a truth value.

## Main definitions

* `Check.Judges`: a check that judges a statement.

## Main results

* `Check.Judges.bind`, `Check.Judges.forM`, `Check.Judges.foldlM`: steps in sequence.
* `Check.Judges.tryAlternative`, `Check.Judges.alternatives`: checking on the side.
* `Check.Judges.check`: what a whole check comes to.
-/

namespace Conform

/-- Old containers are to be as they were, and no fault is admitted. -/
def Terms.untouched (base : Heap) : Terms where
  holds := fun heap => (Invariant.untouched base).holds .still heap
  faulty := fun _ => False

namespace Check

variable {σ α β : Type}

/-- Wherever containers are as they were in `base`, a check comes to `a` without a fault,
leaves containers as they were, and complains unless `P`. -/
def Judges (base : Heap) (context : Context) (m : Check σ α) (a : α) (P : Prop) : Prop :=
  (Terms.untouched base).Ensures context m fun b added => b = a ∧ (added = [] ↔ P)

namespace Judges

variable {base : Heap} {context : Context}

/-! ## Steps -/

theorem congr {m : Check σ α} {a : α} {P Q : Prop} (h : Judges base context m a P)
    (hPQ : P ↔ Q) : Judges base context m a Q := by
  rwa [← propext hPQ]

theorem pure (a : α) : Judges base context (pure a : Check σ α) a True :=
  Terms.Ensures.pure ⟨rfl, iff_of_true rfl trivial⟩

theorem readHeap {f : Heap → α}
    (h : ∀ heap, (Invariant.untouched base).holds .still heap → f heap = f base) :
    Judges base context (readHeap f : Check σ α) (f base) True :=
  Terms.Ensures.readHeap fun heap hheap => ⟨h heap hheap, iff_of_true rfl trivial⟩

theorem readContext {f : Context → α} (h : ∀ V, f (context.holding V) = f context) :
    Judges base context (readContext f : Check σ α) (f context) True :=
  Terms.Ensures.readContext h ⟨rfl, iff_of_true rfl trivial⟩

/-- A change that puts back what was there. -/
theorem changeHeap {f : Heap → Heap}
    (h : ∀ heap, (Invariant.untouched base).holds .still heap → f heap = heap) :
    Judges base context (changeHeap f : Check σ Unit) () True := by
  refine Terms.Ensures.changeHeap (fun heap hheap => ?_) ⟨rfl, iff_of_true rfl trivial⟩
  rwa [h heap hheap]

/-- What is produced the same each time. -/
theorem ofForcing {m : Forcing σ α} {a : α} (h : ∀ env, m env = .ok a env) :
    Judges base context (ofForcing m) a True := by
  refine Terms.Ensures.ofForcing (fun env b env' hok => ?_) fun env fault env' herror => ?_
  · rw [h env] at hok
    cases hok
    exact ⟨rfl, iff_of_true rfl trivial⟩
  · rw [h env] at herror
    cases herror

/-- **Steps in sequence** judge both statements. -/
theorem bind {m : Check σ α} {f : α → Check σ β} {a : α} {b : β} {P Q : Prop}
    (hm : Judges base context m a P) (hf : Judges base context (f a) b Q) :
    Judges base context (m >>= f) b (P ∧ Q) := by
  refine Terms.Ensures.bind hm ?_
  rintro _ added ⟨rfl, hadded⟩
  refine hf.imp fun c more ⟨hc, hmore⟩ => ⟨hc, ?_⟩
  rw [List.append_eq_nil_iff, hadded, hmore]

/-- A first step that judges nothing. -/
theorem after {m : Check σ α} {f : α → Check σ β} {a : α} {b : β} {P : Prop}
    (hm : Judges base context m a True) (hf : Judges base context (f a) b P) :
    Judges base context (m >>= f) b P :=
  (hm.bind hf).congr (iff_of_eq (true_and P))

/-- A last step that judges nothing. -/
theorem before {m : Check σ α} {f : α → Check σ β} {a : α} {b : β} {P : Prop}
    (hm : Judges base context m a P) (hf : Judges base context (f a) b True) :
    Judges base context (m >>= f) b P :=
  (hm.bind hf).congr (iff_of_eq (and_true P))

/-- Whatever is judged, the value is given back. -/
theorem returning {m : Check σ α} {a : α} {P : Prop} (hm : Judges base context m a P) (b : β) :
    Judges base context (do let _ ← m; return b) b P :=
  hm.before (.pure b)

/-- **A loop** judges that the statement holds of all elements. -/
theorem forM {f : β → Check σ PUnit} {P : β → Prop} {xs : List β}
    (h : ∀ x ∈ xs, Judges base context (f x) ⟨⟩ (P x)) :
    Judges base context (xs.forM f) ⟨⟩ (∀ x ∈ xs, P x) := by
  induction xs with
  | nil => exact (pure _).congr (by simp)
  | cons x xs ih =>
    have hrest := ih fun y hy => h y (List.mem_cons_of_mem _ hy)
    exact ((h x (List.mem_cons_self ..)).bind hrest).congr List.forall_mem_cons.symm

/-- A fold whose steps all give back the value. -/
theorem foldlM {f : α → β → Check σ α} {a : α} {xs : List β} {Ps : List Prop}
    (h : List.Forall₂ (fun x P => Judges base context (f a x) a P) xs Ps) :
    Judges base context (xs.foldlM f a) a (∀ P ∈ Ps, P) := by
  induction h with
  | nil => exact (pure a).congr (by simp)
  | cons hx _ ih =>
    rw [List.foldlM_cons]
    exact (hx.bind ih).congr (by simp only [List.forall_mem_cons])

/-! ## Violations -/

section Violations

variable (hcollecting : context.asserting = false)
include hcollecting

theorem report (complaint : Complaint) (inner : List (List Violation)) :
    Judges base context (report complaint inner : Check σ Unit) () False := by
  refine Terms.Ensures.report (fun hasserting => ?_) fun _ =>
    ⟨rfl, iff_of_false (List.cons_ne_nil _ _) id⟩
  rw [hcollecting] at hasserting
  cases hasserting

theorem reportAt (accessor : Accessor) (complaint : Complaint) :
    Judges base context (reportAt accessor complaint : Check σ Unit) () False := by
  refine Terms.Ensures.reportAt (fun hasserting => ?_) fun _ =>
    ⟨rfl, iff_of_false (List.cons_ne_nil _ _) id⟩
  rw [hcollecting] at hasserting
  cases hasserting

theorem demand (holds : Bool) (complaint : Complaint) :
    Judges base context (demand holds complaint : Check σ Unit) () (holds = true) := by
  cases holds with
  | true => exact (pure ()).congr (iff_of_true trivial rfl)
  | false => exact (report hcollecting complaint []).congr (iff_of_false id Bool.false_ne_true)

theorem demandAt (accessor : Accessor) (holds : Bool) (complaint : Complaint) :
    Judges base context (demandAt accessor holds complaint : Check σ Unit) () (holds = true) := by
  cases holds with
  | true => exact (pure ()).congr (iff_of_true trivial rfl)
  | false =>
    exact (reportAt hcollecting accessor complaint).congr (iff_of_false id Bool.false_ne_true)

end Violations

/-! ## Going in -/

theorem under {accessor : Accessor} {m : Check σ α} {a : α} {P : Prop}
    (h : Judges base { context with path := accessor :: context.path } m a P) :
    Judges base context (under accessor m) a P :=
  Terms.Ensures.under h

/-- Into a container that is not on the way. -/
theorem inside {ref : Ref} {m : Check σ Unit} {P : Prop}
    (hnew : context.originOf ref ∉ context.ancestors)
    (h : Judges base
      { context with ancestors := context.originOf ref :: context.ancestors } m () P) :
    Judges base context (inside ref m) () P :=
  Terms.Ensures.inside (fun hmem => absurd hmem hnew) fun _ => h

/-- To a definition, where not too many are under way. -/
theorem visiting {m : Check σ α} {a : α} {P : Prop} (hfew : context.nesting < maxNesting)
    (h : Judges base context.visited m a P) : Judges base context (visiting m) a P :=
  Terms.Ensures.visiting (fun hmany => absurd hfew (Nat.not_lt.2 hmany)) fun _ => h

/-! ## Alternatives -/

/-- **A trial** finds nothing exactly if the copy is judged so, whatever the heap is like
when the copy is made. -/
theorem tryAlternative {recurse : Recurse σ} {value : Value} {alternative : Definition}
    {P : Prop}
    (h : ∀ heap, (Invariant.untouched base).holds .still heap →
      Judges (value.copyWithOrigins heap).2 (context.fork (value.copyWithOrigins heap).1.2)
        (recurse (value.copyWithOrigins heap).1.1 alternative)
        (value.copyWithOrigins heap).1.1 P) :
    (Terms.untouched base).Ensures context (tryAlternative recurse value alternative)
      fun violations added => added = [] ∧ (violations = [] ↔ P) := by
  refine .tryAlternative fun heap hheap => ?_
  refine ⟨Terms.untouched (value.copyWithOrigins heap).2, Invariant.holds_untouched_self,
    fun heap' hheap' => ?_, fun _ => id, (h heap hheap).imp fun _ _ hjudged => ⟨rfl, hjudged.2⟩⟩
  exact Invariant.untouched_trans (Invariant.untouched_copy hheap value).1 hheap'

/-- **Alternatives** judge that one of their statements holds. -/
theorem alternatives {recurse : Recurse σ} {value : Value} {definitions : List Definition}
    {P : Definition → Prop} (hcollecting : context.asserting = false)
    (htry : ∀ d ∈ definitions, (Terms.untouched base).Ensures context
      (Check.tryAlternative recurse value d)
      fun violations added => added = [] ∧ (violations = [] ↔ P d))
    (hrun : ∀ d ∈ definitions, Judges base context (recurse value d) value (P d)) :
    Judges base context (alternatives recurse value [] definitions) value
      (∃ d ∈ definitions, P d) := by
  refine Terms.Ensures.alternatives (fun d violations => violations = [] ↔ P d) htry ?_ ?_ []
  · intro d hd hclean
    have hP : P d := hclean.1 rfl
    exact (hrun d hd).imp fun v added ⟨hv, hadded⟩ => ⟨hv, hadded.trans
      (iff_of_true hP ⟨d, hd, hP⟩)⟩
  · intro hfailed inner
    have hnone : ¬ ∃ d ∈ definitions, P d := by
      rintro ⟨d, hd, hP⟩
      obtain ⟨violations, hfound, htried⟩ := hfailed d hd
      exact hfound (htried.2 hP)
    exact (report hcollecting .noAlternative inner).imp fun _ added ⟨_, hadded⟩ =>
      ⟨rfl, hadded.trans (iff_of_false id hnone)⟩

/-! ## Checks from the start -/

/-- **A check that comes to a verdict** gives the value back with no violations exactly if
the statement holds. -/
theorem check {host : Host σ} {options : Options} {value : Value} {definition : Definition}
    {P : Prop} (world : World σ)
    (h : Judges world.heap (.start options)
      (checkWithin host (nestingBound world.heap definition) value definition) value P) :
    ∃ violations, (Conform.check host options value definition world).1 =
      .ok ⟨value, violations⟩ ∧ (violations = [] ↔ P) := by
  have hends : (Terms.untouched world.heap).Ends (.start options) []
      (fun b added => b = value ∧ (added = [] ↔ P)) (checkWithin host
        (nestingBound world.heap definition) value definition ⟨.start options, world⟩) :=
    h [] world Invariant.holds_untouched_self
  unfold Conform.check
  generalize checkWithin host (nestingBound world.heap definition) value definition
    ⟨.start options, world⟩ = r at hends
  cases hends with
  | ok _ hjudged =>
    obtain ⟨rfl, hverdict⟩ := hjudged
    exact ⟨_, rfl, hverdict⟩
  | error _ hfault => cases hfault

end Judges

end Check

end Conform
