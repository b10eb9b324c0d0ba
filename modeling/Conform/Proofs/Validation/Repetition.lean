import Conform.Proofs.Validation.Postcondition
import Conform.Proofs.Validation.Yield
import Conform.Proofs.Value.Planted

/-!
# What a check does again

A check may change what it is given.  Done a second time, on what it has returned, it is to
find the same violations and to change nothing.  So there are two kinds of statements about
a part of a check: of the first run, what is known of the world it leaves, if it ends
without a fault; and of the second, that it gives a known value, adds known violations and
leaves the world exactly as it is.

What the second run finds must not hang on containers that the value does not lead to,
because these may change in between.  So it is stated of all worlds in which what the value
leads to is as it was.

## Main definitions

* `Check.Observes`: a part of a check that changes nothing.
* `Check.Uniform`: a part of a check that observes the same in many worlds.
* `Check.Leaves`: what is known of the world that a part of a check leaves.
* `Check.Repeats`: a check that gives a value back, wherever this is as it was.
* `Check.Fixes`: a part of a check that finds the same again.

## Main results

* `Check.Observes.bind`, `Check.Leaves.bind`: steps in sequence.
* `Check.Leaves.forM`: a loop, with what each of its steps has added.
* `Check.Leaves.of_ensures`: what a regime ensures is known of the world that is left.
* `Check.Fixes.foldlM`: steps in a row of which one fixes the value.
-/

namespace Conform.Check

variable {σ α β : Type} {context : Context} {world : World σ}

/-! ## Changing nothing -/

/-- In the given world a part of a check gives the value and adds the violations, and leaves
the world as it is. -/
def Observes (context : Context) (world : World σ) (m : Check σ α) (a : α)
    (added : List Violation) : Prop :=
  Yields context (· = world) m (.ok added) fun b after => b = a ∧ after = world

namespace Observes

variable {m : Check σ α} {a : α} {added : List Violation}

theorem apply (h : Observes context world m a added) (V : List Violation) :
    m ⟨context.holding V, world⟩ = .ok a ⟨context.holding (V ++ added), world⟩ := by
  have hends := h V world rfl
  revert hends
  generalize m ⟨context.holding V, world⟩ = r
  intro hends
  cases hends with
  | ok hpost =>
    obtain ⟨rfl, rfl⟩ := hpost
    rfl

theorem congr {m' : Check σ α} (h : Observes context world m a added)
    (hsame : ∀ V, m' ⟨context.holding V, world⟩ = m ⟨context.holding V, world⟩) :
    Observes context world m' a added := by
  rintro V w rfl
  rw [hsame V]
  exact h V w rfl

theorem pure (a : α) : Observes context world (pure a : Check σ α) a [] :=
  Yields.pure fun _ h => ⟨rfl, h⟩

theorem readHeap (f : Heap → α) :
    Observes context world (readHeap f) (f world.heap) [] :=
  Yields.readHeap fun _ h => ⟨congrArg (fun world => f world.heap) h, h⟩

/-- A change that changes nothing. -/
theorem changeHeap {f : Heap → Heap} (h : f world.heap = world.heap) :
    Observes context world (changeHeap f) () [] :=
  Yields.changeHeap fun w hw => by
    subst hw
    exact ⟨rfl, by rw [h]⟩

theorem ofRun {m : Run σ α} (h : m world = (a, world)) : Observes context world (ofRun m) a [] :=
  Yields.ofRun fun w hw => by
    subst hw
    rw [h]
    exact ⟨rfl, rfl⟩

/-- What is read off a context must not hang on its violations. -/
theorem readContext {f : Context → α} (hf : ∀ V, f (context.holding V) = f context) :
    Observes context world (readContext f) (f context) [] :=
  Yields.readContext hf

/-- **Steps in sequence** add their violations one after the other. -/
theorem bind {f : α → Check σ β} {b : β} {more : List Violation}
    (hm : Observes context world m a added) (hf : Observes context world (f a) b more) :
    Observes context world (m >>= f) b (added ++ more) := by
  have hrest : ∀ a', Yields context (fun after => a' = a ∧ after = world) (f a') (.ok more)
      fun b' after => b' = b ∧ after = world := by
    rintro _ V _ ⟨rfl, rfl⟩
    exact hf V _ rfl
  exact Yields.bind hm hrest

/-- A first step that adds nothing. -/
theorem after {f : α → Check σ β} {b : β} (hm : Observes context world m a [])
    (hf : Observes context world (f a) b added) : Observes context world (m >>= f) b added :=
  hm.bind hf

theorem report (hcollecting : context.asserting = false) (complaint : Complaint)
    (inner : List (List Violation)) :
    Observes context world (report complaint inner) ()
      [.ofComplaint context.pathText complaint inner] := by
  refine (readContext fun _ => rfl).after ?_
  rintro V w rfl
  rw [add_of_not_asserting _ ⟨context.holding V, w⟩ (Bool.eq_false_iff.1 hcollecting)]
  exact .ok ⟨rfl, rfl⟩

end Observes

/-- A part of a check gives the same value and adds the same violations in all worlds of
which so much is known, and changes none of them. -/
def Uniform (context : Context) (known : World σ → Prop) (m : Check σ α) (a : α) : Prop :=
  ∃ added, ∀ world, known world → Observes context world m a added

/-- The worlds in which what a value leads to is as in the heap. -/
abbrev Retaining (σ : Type) (heap : Heap) (value : Value) (world : World σ) : Prop :=
  heap.Retains value world.heap

namespace Uniform

variable {known : World σ → Prop} {m : Check σ α} {a : α}

theorem pure (a : α) : Uniform context known (pure a : Check σ α) a :=
  ⟨[], fun _ _ => .pure a⟩

theorem bind {f : α → Check σ β} {b : β} (hm : Uniform context known m a)
    (hf : Uniform context known (f a) b) : Uniform context known (m >>= f) b := by
  obtain ⟨added, hm⟩ := hm
  obtain ⟨more, hf⟩ := hf
  exact ⟨added ++ more, fun world h => (hm world h).bind (hf world h)⟩

theorem returning (hm : Uniform context known m a) (b : β) :
    Uniform context known (do let _ ← m; return b) b :=
  hm.bind (pure b)

/-- What is read must be the same in all the worlds. -/
theorem readHeap {f : Heap → α} (h : ∀ world, known world → f world.heap = a) :
    Uniform context known (readHeap f) a :=
  ⟨[], fun world hknown => h world hknown ▸ .readHeap f⟩

theorem forM {f : β → Check σ PUnit} {xs : List β}
    (h : ∀ x ∈ xs, Uniform context known (f x) ()) : Uniform context known (xs.forM f) () := by
  induction xs with
  | nil => exact pure ()
  | cons x xs ih =>
    obtain ⟨hx, hxs⟩ := List.forall_mem_cons.1 h
    exact hx.bind (ih hxs)

variable (hcollecting : context.asserting = false)
include hcollecting

theorem report (complaint : Complaint) (inner : List (List Violation)) :
    Uniform context known (report complaint inner) () :=
  ⟨_, fun _ _ => .report hcollecting complaint inner⟩

theorem demand (holds : Bool) (complaint : Complaint) :
    Uniform context known (demand holds complaint) () := by
  unfold Check.demand
  split
  · exact pure ()
  · exact report hcollecting complaint []

theorem demandAt (accessor : Accessor) (holds : Bool) (complaint : Complaint) :
    Uniform context known (demandAt accessor holds complaint) () :=
  ⟨_, fun _ _ => (Yields.demandAt hcollecting accessor holds complaint).imp fun _ _ h => ⟨rfl, h⟩⟩

end Uniform

/-! ## What is left -/

/-- If a part of a check ends without a fault from the given world, so much is known of what
it gives, the violations that it adds and the world that it leaves. -/
def Leaves (context : Context) (world : World σ) (m : Check σ α)
    (post : α → List Violation → World σ → Prop) : Prop :=
  ∀ V a session, m ⟨context.holding V, world⟩ = .ok a session →
    ∃ added after, session = ⟨context.holding (V ++ added), after⟩ ∧ post a added after

namespace Leaves

variable {m : Check σ α} {P Q : α → List Violation → World σ → Prop}

theorem imp (h : Leaves context world m P)
    (himp : ∀ a added after, P a added after → Q a added after) : Leaves context world m Q := by
  intro V a session hok
  obtain ⟨added, after, hsession, hpost⟩ := h V a session hok
  exact ⟨added, after, hsession, himp _ _ _ hpost⟩

theorem congr {m' : Check σ α} (h : Leaves context world m P)
    (hsame : ∀ V, m' ⟨context.holding V, world⟩ = m ⟨context.holding V, world⟩) :
    Leaves context world m' P :=
  fun V a session hok => h V a session (hsame V ▸ hok)

theorem and (h : Leaves context world m P) (h' : Leaves context world m Q) :
    Leaves context world m fun a added after => P a added after ∧ Q a added after := by
  intro V a session hok
  obtain ⟨added, after, hsession, hpost⟩ := h V a session hok
  obtain ⟨added', after', hsession', hpost'⟩ := h' V a session hok
  -- Both speak of the same end.
  have heq := hsession.symm.trans hsession'
  have hadded : added = added' :=
    List.append_cancel_left (congrArg (fun session => session.context.violations) heq)
  obtain rfl : after = after' := congrArg Session.world heq
  exact ⟨added, after, hsession, hpost, hadded ▸ hpost'⟩

/-- What changes nothing leaves the world as it is. -/
theorem of_observes {a : α} {added : List Violation} (h : Observes context world m a added)
    (hpost : P a added world) : Leaves context world m P := by
  intro V b session hok
  rw [h.apply V] at hok
  cases hok
  exact ⟨added, world, rfl, hpost⟩

theorem throw (fault : ValidationError) : Leaves context world (throw fault : Check σ α) P := by
  intro V a session hok
  cases hok

/-- Terms that are kept are known of the world that is left. -/
theorem of_ensures {T : Terms} {R : α → List Violation → Prop} (h : T.Ensures context m R)
    (hholds : T.holds world.heap) :
    Leaves context world m fun a added after => T.holds after.heap ∧ R a added := by
  intro V a session hok
  have hends := h V world hholds
  rw [hok] at hends
  cases hends with
  | ok hafter ha => exact ⟨_, _, rfl, hafter, ha⟩

theorem ofRun {m : Run σ α} (h : P (m world).1 [] (m world).2) :
    Leaves context world (ofRun m) P := by
  intro V a session hok
  cases hok
  exact ⟨[], (m world).2, by rw [List.append_nil], h⟩

theorem changeHeap {f : Heap → Heap} {P : Unit → List Violation → World σ → Prop}
    (h : P () [] ⟨f world.heap, world.env⟩) : Leaves context world (changeHeap f) P :=
  ofRun h

/-- **Steps in sequence.** -/
theorem bind {f : α → Check σ β} {R : β → List Violation → World σ → Prop}
    (hm : Leaves context world m P)
    (hf : ∀ a added after, P a added after →
      Leaves context after (f a) fun b more => R b (added ++ more)) :
    Leaves context world (m >>= f) R := by
  intro V b session hok
  simp only [Bind.bind, EStateM.bind] at hok
  cases hfirst : m ⟨context.holding V, world⟩ with
  | error fault session' =>
    rw [hfirst] at hok
    cases hok
  | ok a session' =>
    rw [hfirst] at hok
    obtain ⟨added, after, rfl, hpost⟩ := hm V a session' hfirst
    obtain ⟨more, final, rfl, hlast⟩ := hf a added after hpost (V ++ added) b session hok
    exact ⟨added ++ more, final, by rw [List.append_assoc], hlast⟩

/-- A first step that changes nothing. -/
theorem after {f : α → Check σ β} {R : β → List Violation → World σ → Prop} {a : α}
    {added : List Violation} (hm : Observes context world m a added)
    (hf : Leaves context world (f a) fun b more => R b (added ++ more)) :
    Leaves context world (m >>= f) R := by
  refine (of_observes (P := fun a' added' after => a' = a ∧ added' = added ∧ after = world) hm
    ⟨rfl, rfl, rfl⟩).bind ?_
  rintro _ _ _ ⟨rfl, rfl, rfl⟩
  exact hf

/-- **A loop** leaves what its steps leave, if each step leaves what is known after one more
element and the violations that it has added. -/
theorem forM (known : List (β × List Violation) → World σ → Prop) {f : β → Check σ PUnit}
    {xs : List β} (hstart : known [] world)
    (h : ∀ done x rest, xs = done.map Prod.fst ++ x :: rest → ∀ world, known done world →
      Leaves context world (f x) fun _ added after => known (done ++ [(x, added)]) after) :
    Leaves context world (xs.forM f) fun _ added after => ∃ done, done.map Prod.fst = xs ∧
      added = (done.map Prod.snd).flatten ∧ known done after := by
  suffices hrest : ∀ done rest, xs = done.map Prod.fst ++ rest → ∀ world, known done world →
      Leaves context world (rest.forM f) fun _ added after => ∃ more, more.map Prod.fst = rest ∧
        added = (more.map Prod.snd).flatten ∧ known (done ++ more) after from
    hrest [] xs rfl world hstart
  intro done rest hxs
  -- What is left of the list gets shorter as what is done gets longer.
  induction rest generalizing done with
  | nil =>
    intro world hknown
    exact of_observes (.pure ()) ⟨[], rfl, rfl, by rwa [List.append_nil]⟩
  | cons x rest ih =>
    intro world hknown
    refine (h done x rest hxs world hknown).bind fun _ added after hafter => ?_
    have hmore : xs = (done ++ [(x, added)]).map Prod.fst ++ rest := by
      rw [List.map_append, List.append_assoc]
      exact hxs
    refine (ih _ hmore after hafter).imp ?_
    rintro _ _ final ⟨more, rfl, rfl, hfinal⟩
    refine ⟨(x, added) :: more, rfl, rfl, ?_⟩
    rwa [List.append_assoc] at hfinal

/-! ### Going in -/

theorem bracket {enter leave : Context → Context} {inner : Context}
    (h : Leaves inner world m P) (henter : ∀ V, enter (context.holding V) = inner.holding V)
    (hleave : ∀ V, leave (inner.holding V) = context.holding V) :
    Leaves context world (bracket enter leave m) P := by
  intro V a session hok
  simp only [Check.bracket, henter] at hok
  cases hinner : m ⟨inner.holding V, world⟩ with
  | error fault session' =>
    rw [hinner] at hok
    cases hok
  | ok a' session' =>
    obtain ⟨added, after, rfl, hpost⟩ := h V a' session' hinner
    rw [hinner] at hok
    cases hok
    exact ⟨added, after, by rw [hleave], hpost⟩

theorem under {accessor : Accessor}
    (h : Leaves { context with path := accessor :: context.path } world m P) :
    Leaves context world (under accessor m) P :=
  bracket h (fun _ => rfl) fun _ => rfl

/-- Into a container that the way has not come through. -/
theorem inside {ref : Ref} {m : Check σ Unit} {P : Unit → List Violation → World σ → Prop}
    (hnew : context.originOf ref ∉ context.ancestors)
    (h : Leaves { context with ancestors := context.originOf ref :: context.ancestors } world m
      P) : Leaves context world (inside ref m) P := by
  refine after (.readContext (f := fun c => c.originOf ref) fun _ => rfl) ?_
  refine after (.readContext (f := fun c => c.ancestors) fun _ => rfl) ?_
  rw [if_neg hnew]
  exact bracket h (fun _ => rfl) fun _ => rfl

/-- To a definition. -/
theorem visiting (h : context.nesting < maxNesting → Leaves context.visited world m P) :
    Leaves context world (visiting m) P := by
  refine after (.readContext (f := Context.nesting) fun _ => rfl) ?_
  split
  · exact after (.readContext (f := Context.pathText) fun _ => rfl) (throw _)
  · next hfew => exact bracket (h (Nat.not_le.1 hfew)) (fun _ => rfl) fun _ => rfl

end Leaves

/-! ## Doing it again -/

/-- Wherever what the value leads to is as in the heap, a check of the value gives it back,
adds the violations and changes nothing. -/
def Repeats (context : Context) (heap : Heap) (m : Value → Check σ Value) (value : Value)
    (added : List Violation) : Prop :=
  ∀ world : World σ, heap.Retains value world.heap → Observes context world (m value) value added

/-- What is repeated in one heap is repeated in another where the value is as it was. -/
theorem Repeats.of_retains {heap heap' : Heap} {m : Value → Check σ Value} {value : Value}
    {added : List Violation} (h : Repeats context heap m value added)
    (hretains : heap.Retains value heap') : Repeats context heap' m value added :=
  fun world hworld => h world (hretains.trans hworld)

/-- A part of a check of a value that fixes it: when it has ended without a fault, the value
is still in the heap, and the same again, wherever what the value leads to is as it is now,
gives and adds the same and changes nothing. -/
def Fixes (context : Context) (world : World σ) (value : Value) (m : Check σ α) (a : α) :
    Prop :=
  Leaves context world m fun b added after => b = a ∧ after.heap.Holds value ∧
    ∀ later : World σ, after.heap.Retains value later.heap → Observes context later m a added

namespace Fixes

variable {value : Value} {m : Check σ α} {a : α}

/-- What only looks at the value fixes it. -/
theorem of_uniform (hholds : world.heap.Holds value)
    (h : Uniform context (Retaining σ world.heap value) m a) :
    Fixes context world value m a := by
  obtain ⟨added, h⟩ := h
  exact .of_observes (h world (.refl _ _)) ⟨rfl, hholds, h⟩

/-- A first step that does not look at the heap. -/
theorem after_uniform {f : α → Check σ β} {b : β} (hm : Uniform context (fun _ => True) m a)
    (hf : Fixes context world value (f a) b) : Fixes context world value (m >>= f) b := by
  obtain ⟨added, hm⟩ := hm
  refine .after (hm world trivial) (hf.imp ?_)
  rintro _ more after ⟨rfl, hholds, hagain⟩
  exact ⟨rfl, hholds, fun later hlater => (hm later trivial).bind (hagain later hlater)⟩

/-- A last step that only looks at the value. -/
theorem bind_uniform {f : α → Check σ β} {b : β} (hm : Fixes context world value m a)
    (hf : ∀ heap : Heap, Uniform context (Retaining σ heap value) (f a) b) :
    Fixes context world value (m >>= f) b := by
  refine hm.bind ?_
  rintro _ added after ⟨rfl, hholds, hagain⟩
  obtain ⟨more, hf⟩ := hf after.heap
  exact .of_observes (hf after (.refl _ _))
    ⟨rfl, hholds, fun later hlater => (hagain later hlater).bind (hf later hlater)⟩

theorem returning (hm : Fixes context world value m a) (b : β) :
    Fixes context world value (do let _ ← m; return b) b :=
  hm.bind_uniform fun _ => .pure b

/-- Into a container, or not where the way has come through it: it is the same way again. -/
theorem inside (hcollecting : context.asserting = false) (hholds : world.heap.Holds value)
    {ref : Ref} {m : Check σ Unit}
    (h : Fixes { context with ancestors := context.originOf ref :: context.ancestors } world
      value m ()) : Fixes context world value (inside ref m) () := by
  by_cases hmem : context.originOf ref ∈ context.ancestors
  -- A cycle is found before the container is looked at.
  · refine of_uniform hholds ⟨[.ofComplaint context.pathText .cycle []], fun later _ => ?_⟩
    refine (Observes.readContext (f := fun c => c.originOf ref) fun _ => rfl).after ?_
    refine (Observes.readContext (f := fun c => c.ancestors) fun _ => rfl).after ?_
    rw [if_pos hmem]
    exact .report hcollecting .cycle []
  · refine (Leaves.inside hmem h).imp ?_
    rintro _ added after ⟨rfl, hholds, hagain⟩
    exact ⟨rfl, hholds, fun later hlater => Yields.inside hmem (hagain later hlater)⟩

/-- **Steps in a row fix a value** if one of them does, those before do not look at the
heap, and those after only look at the value. -/
theorem foldlM {step : Value → β → Check σ Value} (before last : List β) {x : β}
    (hbefore : ∀ y ∈ before, Uniform context (fun _ => True) (step value y) value)
    (hx : Fixes context world value (step value x) value)
    (hlast : ∀ y ∈ last, ∀ heap : Heap,
      Uniform context (Retaining σ heap value) (step value y) value) :
    Fixes context world value ((before ++ x :: last).foldlM step value) value := by
  induction before with
  | nil =>
    refine hx.bind_uniform fun heap => ?_
    induction last with
    | nil => exact .pure value
    | cons y last ih =>
      obtain ⟨hy, hrest⟩ := List.forall_mem_cons.1 hlast
      exact (hy heap).bind (ih hrest)
  | cons y before ih =>
    obtain ⟨hy, hrest⟩ := List.forall_mem_cons.1 hbefore
    exact after_uniform hy (ih hrest)

end Fixes

end Conform.Check
