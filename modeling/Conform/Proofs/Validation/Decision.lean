import Conform.Proofs.Validation.Frame

/-!
# Checks that decide

A check decides a statement about a value when it gives the value back, leaves every
container as it was, and complains exactly if the statement does not hold.  A check that
decides after another decides both statements together, and a loop decides that all hold.

Nothing is said of a check that comes to a fault, and this includes the violation at which
a check stops that stops at the first one.

## Main definitions

* `Check.Decides`: a check that decides a statement.

## Main results

* `Check.Decides.bind`, `Check.Decides.forM`: steps in sequence.
* `Check.Decides.under`, `Check.Decides.inside`, `Check.Decides.visiting`: going in.
* `Check.Decides.violations_eq_nil_iff`: what a whole check finds.
-/

namespace Conform

namespace Check

variable {σ α β : Type}

/-- Wherever containers are as they were in `base`, and if it comes to a value at all, a
check comes to `a`, leaves containers as they were, and complains unless `P`. -/
def Decides (base : Heap) (context : Context) (m : Check σ α) (a : α) (P : Prop) : Prop :=
  ∀ (V : List Violation) (world : World σ),
    (Invariant.untouched base).holds .still world.heap →
    ∀ b session, m ⟨context.holding V, world⟩ = .ok b session →
      b = a ∧ (Invariant.untouched base).holds .still session.world.heap ∧
        ∃ added, session.context = context.holding (V ++ added) ∧ (added = [] ↔ P)

namespace Decides

variable {base : Heap} {context : Context}

/-! ## Steps -/

theorem congr {m : Check σ α} {a : α} {P Q : Prop} (h : Decides base context m a P)
    (hPQ : P ↔ Q) : Decides base context m a Q := by
  rwa [← propext hPQ]

/-- What leaves the context as it is, and containers too, decides nothing. -/
theorem of_quiet {m : Check σ α} {a : α}
    (h : ∀ V (world : World σ), (Invariant.untouched base).holds .still world.heap →
      ∃ world', m ⟨context.holding V, world⟩ = .ok a ⟨context.holding V, world'⟩ ∧
        (Invariant.untouched base).holds .still world'.heap) :
    Decides base context m a True := by
  intro V world hworld b session hok
  obtain ⟨world', hm, hworld'⟩ := h V world hworld
  rw [hm] at hok
  cases hok
  exact ⟨rfl, hworld', [], by rw [List.append_nil], iff_of_true rfl trivial⟩

theorem pure (a : α) : Decides base context (pure a : Check σ α) a True :=
  of_quiet fun _ world hworld => ⟨world, rfl, hworld⟩

/-- What comes to a fault decides anything. -/
theorem throw {fault : ValidationError} {a : α} {P : Prop} :
    Decides base context (throw fault : Check σ α) a P := by
  rintro V world - b session ⟨⟩

theorem readHeap {f : Heap → α}
    (h : ∀ heap, (Invariant.untouched base).holds .still heap → f heap = f base) :
    Decides base context (readHeap f : Check σ α) (f base) True :=
  of_quiet fun V world hworld => ⟨world, by rw [← h world.heap hworld]; rfl, hworld⟩

theorem readContext {f : Context → α} (h : ∀ V, f (context.holding V) = f context) :
    Decides base context (readContext f : Check σ α) (f context) True :=
  of_quiet fun V world hworld => ⟨world, by rw [← h V]; rfl, hworld⟩

/-- A change that puts back what was there. -/
theorem changeHeap {f : Heap → Heap}
    (h : ∀ heap, (Invariant.untouched base).holds .still heap → f heap = heap) :
    Decides base context (changeHeap f : Check σ Unit) () True :=
  of_quiet fun V world hworld => ⟨⟨f world.heap, world.env⟩, rfl, by rwa [h world.heap hworld]⟩

/-- What is the same each time that it is produced. -/
theorem ofForcing {m : Forcing σ α} {a : α} (h : ∀ env b env', m env = .ok b env' → b = a) :
    Decides base context (ofForcing m) a True := by
  intro V world hworld b session hok
  simp only [Check.ofForcing, ofRun, Run.ofForcing, Bind.bind, EStateM.bind] at hok
  cases hm : m world.env with
  | ok b' env =>
    rw [hm] at hok
    cases hok
    exact ⟨h _ _ _ hm, hworld, [], by rw [List.append_nil], iff_of_true rfl trivial⟩
  | error fault env => rw [hm] at hok; cases hok

/-- After what can never be produced anything is decided. -/
theorem ofForcing_of_error {m : Forcing σ α} {f : α → Check σ β} {b : β} {P : Prop}
    (h : ∀ env a env', m env ≠ .ok a env') :
    Decides base context (Check.ofForcing m >>= f) b P := by
  intro V world _ c session hok
  simp only [Check.ofForcing, ofRun, Run.ofForcing, Bind.bind, EStateM.bind] at hok
  cases hm : m world.env with
  | ok a env => exact absurd hm (h _ _ _)
  | error fault env => rw [hm] at hok; cases hok

/-- **Steps in sequence** decide both statements. -/
theorem bind {m : Check σ α} {f : α → Check σ β} {a : α} {b : β} {P Q : Prop}
    (hm : Decides base context m a P) (hf : Decides base context (f a) b Q) :
    Decides base context (m >>= f) b (P ∧ Q) := by
  intro V world hworld c session hok
  simp only [Bind.bind, EStateM.bind] at hok
  cases hfirst : m ⟨context.holding V, world⟩ with
  | error fault middle =>
    rw [hfirst] at hok
    cases hok
  | ok a' middle =>
    rw [hfirst] at hok
    obtain ⟨rfl, hmiddle, added, hcontext, hP⟩ := hm V world hworld a' middle hfirst
    obtain ⟨context', world'⟩ := middle
    obtain rfl : context' = context.holding (V ++ added) := hcontext
    obtain ⟨rfl, hsession, more, hlast, hQ⟩ := hf (V ++ added) world' hmiddle c session hok
    refine ⟨rfl, hsession, added ++ more, by rw [hlast, List.append_assoc], ?_⟩
    rw [List.append_eq_nil_iff, hP, hQ]

/-- A first step that decides nothing. -/
theorem after {m : Check σ α} {f : α → Check σ β} {a : α} {b : β} {P : Prop}
    (hm : Decides base context m a True) (hf : Decides base context (f a) b P) :
    Decides base context (m >>= f) b P :=
  (hm.bind hf).congr (iff_of_eq (true_and P))

/-- A last step that decides nothing. -/
theorem before {m : Check σ α} {f : α → Check σ β} {a : α} {b : β} {P : Prop}
    (hm : Decides base context m a P) (hf : Decides base context (f a) b True) :
    Decides base context (m >>= f) b P :=
  (hm.bind hf).congr (iff_of_eq (and_true P))

/-- Whatever is decided, the value is given back. -/
theorem returning {m : Check σ α} {a : α} {P : Prop} (hm : Decides base context m a P) (b : β) :
    Decides base context (do let _ ← m; return b) b P :=
  hm.before (.pure b)

/-- **A loop** decides that the statement holds of all elements. -/
theorem forM {f : β → Check σ PUnit} {P : β → Prop} {xs : List β}
    (h : ∀ x ∈ xs, Decides base context (f x) ⟨⟩ (P x)) :
    Decides base context (xs.forM f) ⟨⟩ (∀ x ∈ xs, P x) := by
  induction xs with
  | nil => exact (pure _).congr (by simp)
  | cons x xs ih =>
    have hrest := ih fun y hy => h y (List.mem_cons_of_mem _ hy)
    exact ((h x (List.mem_cons_self ..)).bind hrest).congr List.forall_mem_cons.symm

/-- A fold whose steps all give back the value. -/
theorem foldlM {f : α → β → Check σ α} {a : α} {xs : List β} {Ps : List Prop}
    (h : List.Forall₂ (fun x P => Decides base context (f a x) a P) xs Ps) :
    Decides base context (xs.foldlM f a) a (∀ P ∈ Ps, P) := by
  induction h with
  | nil => exact (pure a).congr (by simp)
  | cons hx _ ih =>
    rw [List.foldlM_cons]
    exact (hx.bind ih).congr (by simp only [List.forall_mem_cons])

/-! ## Violations -/

theorem add (violation : Violation) :
    Decides base context (add violation : Check σ Unit) () False := by
  intro V world hworld b session hok
  by_cases hasserting : context.asserting = true
  · rw [add_of_asserting violation ⟨context.holding V, world⟩ hasserting] at hok
    cases hok
  · rw [add_of_not_asserting violation ⟨context.holding V, world⟩ hasserting] at hok
    cases hok
    exact ⟨rfl, hworld, [violation], rfl, iff_of_false (List.cons_ne_nil _ _) id⟩

theorem report (complaint : Complaint) (inner : List (List Violation)) :
    Decides base context (report complaint inner : Check σ Unit) () False :=
  after (readContext (f := Context.pathText) fun _ => rfl) (add _)

theorem reportAt (accessor : Accessor) (complaint : Complaint) :
    Decides base context (reportAt accessor complaint : Check σ Unit) () False :=
  after (readContext (f := Context.pathText) fun _ => rfl) (add _)

theorem demand (holds : Bool) (complaint : Complaint) :
    Decides base context (demand holds complaint : Check σ Unit) () (holds = true) := by
  cases holds with
  | true => exact (pure ()).congr (iff_of_true trivial rfl)
  | false => exact (report complaint []).congr (iff_of_false id Bool.false_ne_true)

theorem demandAt (accessor : Accessor) (holds : Bool) (complaint : Complaint) :
    Decides base context (demandAt accessor holds complaint : Check σ Unit) () (holds = true) := by
  cases holds with
  | true => exact (pure ()).congr (iff_of_true trivial rfl)
  | false => exact (reportAt accessor complaint).congr (iff_of_false id Bool.false_ne_true)

/-! ## Going in -/

theorem bracket {enter leave : Context → Context} {inner : Context} {m : Check σ α} {a : α}
    {P : Prop} (h : Decides base inner m a P)
    (henter : ∀ V, enter (context.holding V) = inner.holding V)
    (hleave : ∀ V, leave (inner.holding V) = context.holding V) :
    Decides base context (bracket enter leave m) a P := by
  intro V world hworld b session hok
  simp only [Check.bracket, henter] at hok
  cases hm : m ⟨inner.holding V, world⟩ with
  | error fault middle =>
    rw [hm] at hok
    cases hok
  | ok b' middle =>
    rw [hm] at hok
    cases hok
    obtain ⟨rfl, hmiddle, added, hcontext, hP⟩ := h V world hworld b middle hm
    refine ⟨rfl, hmiddle, added, ?_, hP⟩
    change leave middle.context = _
    rw [hcontext, hleave]

theorem under {accessor : Accessor} {m : Check σ α} {a : α} {P : Prop}
    (h : Decides base { context with path := accessor :: context.path } m a P) :
    Decides base context (under accessor m) a P :=
  bracket h (fun _ => rfl) (fun _ => rfl)

/-- Into a container that is not on the way. -/
theorem inside {ref : Ref} {m : Check σ Unit} {P : Prop}
    (hnew : context.originOf ref ∉ context.ancestors)
    (h : Decides base
      { context with ancestors := context.originOf ref :: context.ancestors } m () P) :
    Decides base context (inside ref m) () P := by
  refine after (readContext (f := fun c => c.originOf ref) fun _ => rfl) ?_
  refine after (readContext (f := fun c => c.ancestors) fun _ => rfl) ?_
  rw [if_neg hnew]
  exact bracket h (fun _ => rfl) (fun _ => rfl)

theorem visiting {m : Check σ α} {a : α} {P : Prop} (h : Decides base context.visited m a P) :
    Decides base context (visiting m) a P := by
  refine after (readContext (f := Context.nesting) fun _ => rfl) ?_
  split
  · exact after (readContext (f := Context.pathText) fun _ => rfl) throw
  · exact bracket h (fun _ => rfl) (fun _ => rfl)

/-! ## Whole checks -/

/-- **A whole check finds no violation** exactly if the statement holds that it decides. -/
theorem violations_eq_nil_iff {host : Host σ} {options : Options} {value : Value}
    {definition : Definition} {world after : World σ} {outcome : Outcome} {P : Prop}
    (h : Decides world.heap (.start options)
      (checkWithin host (nestingBound world.heap definition) value definition) value P)
    (hcheck : check host options value definition world = (.ok outcome, after)) :
    outcome.violations = [] ↔ P := by
  unfold check at hcheck
  cases hrun : checkWithin host (nestingBound world.heap definition) value definition
      ⟨.start options, world⟩ with
  | error fault session =>
    rw [hrun] at hcheck
    cases hcheck
  | ok result session =>
    obtain ⟨-, -, added, hcontext, hP⟩ :=
      h [] world Invariant.holds_untouched_self result session hrun
    rw [hrun] at hcheck
    cases hcheck
    change session.context.violations = [] ↔ P
    rw [hcontext]
    exact hP

end Decides

end Check

end Conform
