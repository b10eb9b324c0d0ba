import Conform.Proofs.Validation.Discipline

/-!
# What a part of a check yields

Some checks can be foretold to the last violation: from what is known of the world before,
a part of a check yields the given violations, in order, and leaves a world of which
something else is known; or it ends with the given fault.

Steps in sequence yield what they yield one after the other, up to the first fault.  So
what is foretold of a sequence is put together as the sequence is.

## Main definitions

* `Check.Yields`: what a part of a check yields.

## Main results

* `Check.Yields.bind`, `Check.Yields.forM`: steps in sequence.
* `Check.Yields.under`, `Check.Yields.inside`, `Check.Yields.visiting`: going in.
-/

namespace Conform.Check

variable {σ α β : Type}

/-- How a part of a check ends that began with the given violations and yields the given
ones, or the given fault. -/
inductive Yielded (context : Context) (V : List Violation) (post : α → World σ → Prop) :
    Except ValidationError (List Violation) →
      EStateM.Result ValidationError (Session σ) α → Prop where
  | ok {a : α} {added : List Violation} {world : World σ} : post a world →
      Yielded context V post (.ok added) (.ok a ⟨context.holding (V ++ added), world⟩)
  | error {fault : ValidationError} {session : Session σ} :
      Yielded context V post (.error fault) (.error fault session)

/-- From a world of which the one is known, a part of a check yields what is foretold, and
of its value and the world that it leaves the other is known. -/
def Yields (context : Context) (pre : World σ → Prop) (m : Check σ α)
    (found : Except ValidationError (List Violation)) (post : α → World σ → Prop) : Prop :=
  ∀ (V : List Violation) (world : World σ), pre world →
    Yielded context V post found (m ⟨context.holding V, world⟩)

/-- Nothing is added to what is found. -/
theorem map_append_nil (found : Except ValidationError (List Violation)) :
    found.map (· ++ []) = found := by
  cases found with
  | error fault => rfl
  | ok added => exact congrArg Except.ok (List.append_nil added)

namespace Yields

variable {context : Context} {pre : World σ → Prop} {post : α → World σ → Prop}
  {found : Except ValidationError (List Violation)}

/-! ## Steps -/

theorem imp {m : Check σ α} {post' : α → World σ → Prop} (h : Yields context pre m found post)
    (himp : ∀ a world, post a world → post' a world) : Yields context pre m found post' := by
  intro V world hpre
  have hends := h V world hpre
  revert hends
  generalize m ⟨context.holding V, world⟩ = r
  intro hends
  cases hends with
  | ok hpost => exact .ok (himp _ _ hpost)
  | error => exact .error

theorem ofRun {m : Run σ α} (h : ∀ world, pre world → post (m world).1 (m world).2) :
    Yields context pre (ofRun m) (.ok []) post := by
  intro V world hpre
  have hok : Yielded context V post (.ok []) (.ok (m world).1
      ⟨context.holding (V ++ []), (m world).2⟩) := .ok (h world hpre)
  rwa [List.append_nil] at hok

theorem pure {a : α} (h : ∀ world, pre world → post a world) :
    Yields context pre (pure a : Check σ α) (.ok []) post :=
  ofRun (m := fun world => (a, world)) h

theorem readHeap {f : Heap → α} (h : ∀ world, pre world → post (f world.heap) world) :
    Yields context pre (readHeap f) (.ok []) post :=
  ofRun (m := fun world => (f world.heap, world)) h

theorem changeHeap {f : Heap → Heap} {post : Unit → World σ → Prop}
    (h : ∀ world, pre world → post () ⟨f world.heap, world.env⟩) :
    Yields context pre (changeHeap f) (.ok []) post :=
  ofRun h

/-- What is read off a context must not hang on its violations. -/
theorem readContext {f : Context → α} (hf : ∀ V, f (context.holding V) = f context) :
    Yields context pre (readContext f) (.ok []) fun a world => a = f context ∧ pre world := by
  intro V world hpre
  simp only [Check.readContext, hf]
  exact pure (fun _ hpre => ⟨rfl, hpre⟩) V world hpre

/-- **Steps in sequence** yield one after the other, up to the first fault. -/
theorem bind {m : Check σ α} {f : α → Check σ β} {more : Except ValidationError (List Violation)}
    {last : β → World σ → Prop} (hm : Yields context pre m found post)
    (hf : ∀ a, Yields context (post a) (f a) more last) :
    Yields context pre (m >>= f) (do return (← found) ++ (← more)) last := by
  intro V world hpre
  have hfirst := hm V world hpre
  simp only [Bind.bind, EStateM.bind]
  revert hfirst
  generalize m ⟨context.holding V, world⟩ = r
  intro hfirst
  cases hfirst with
  | error => exact .error
  | @ok a added world hpost =>
    have hrest := hf a (V ++ added) world hpost
    simp only [Except.bind]
    revert hrest
    generalize f a ⟨context.holding (V ++ added), world⟩ = s
    intro hrest
    cases hrest with
    | error => exact .error
    | ok hlast =>
      rw [List.append_assoc]
      exact .ok hlast

/-- A first step that yields nothing. -/
theorem after {m : Check σ α} {f : α → Check σ β} {last : β → World σ → Prop}
    (hm : Yields context pre m (.ok []) post) (hf : ∀ a, Yields context (post a) (f a) found last) :
    Yields context pre (m >>= f) found last := by
  have hboth := hm.bind hf
  cases found <;> exact hboth

/-- A last step that has no fault. -/
theorem append {m : Check σ α} {f : α → Check σ β} {added : List Violation}
    {last : β → World σ → Prop} (hm : Yields context pre m found post)
    (hf : ∀ a, Yields context (post a) (f a) (.ok added) last) :
    Yields context pre (m >>= f) (found.map (· ++ added)) last := by
  have hboth := hm.bind hf
  cases found <;> exact hboth

/-- A last step that yields nothing. -/
theorem before {m : Check σ α} {f : α → Check σ β} {last : β → World σ → Prop}
    (hm : Yields context pre m found post)
    (hf : ∀ a, Yields context (post a) (f a) (.ok []) last) :
    Yields context pre (m >>= f) found last := by
  have hboth := hm.append hf
  rwa [map_append_nil] at hboth

/-- A first step that reads a known heap. -/
theorem reading {f : Heap → α} {g : α → Check σ β} {heap : Heap} {last : β → World σ → Prop}
    (h : Yields context (fun w => w.heap = heap) (g (f heap)) found last) :
    Yields context (fun w => w.heap = heap) (Check.readHeap f >>= g) found last := by
  rintro V w rfl
  exact h V w rfl

/-- **A loop** yields what its steps yield, if each step leaves what is known after one
more element. -/
theorem forM (known : List β → World σ → Prop) {f : β → Check σ PUnit}
    {yield : β → Except ValidationError (List Violation)} {xs : List β}
    (h : ∀ done x rest, xs = done ++ x :: rest →
      Yields context (known done) (f x) (yield x) fun _ => known (done ++ [x])) :
    Yields context (known []) (xs.forM f) ((xs.mapM yield).map List.flatten) fun _ => known xs := by
  suffices hrest : ∀ done rest, xs = done ++ rest → Yields context (known done) (rest.forM f)
      ((rest.mapM yield).map List.flatten) fun _ => known xs from hrest [] xs rfl
  intro done rest hxs
  -- What is left of the list gets shorter as what is done gets longer.
  induction rest generalizing done with
  | nil =>
    rw [List.append_nil] at hxs
    subst hxs
    exact pure fun _ hknown => hknown
  | cons x rest ih =>
    have hfirst := h done x rest hxs
    have hrest := ih (done ++ [x]) (by rw [hxs, List.append_assoc, List.singleton_append])
    have hboth := hfirst.bind fun _ => hrest
    have hfound : (((x :: rest).mapM yield).map List.flatten) =
        (do return (← yield x) ++ (← (rest.mapM yield).map List.flatten)) := by
      rw [List.mapM_cons]
      cases yield x with
      | error fault => rfl
      | ok added => cases rest.mapM yield <;> rfl
    rw [hfound]
    exact hboth

/-! ## Violations -/

/-- A complaint one step on, where violations are collected. -/
theorem demandAt (hcollecting : context.asserting = false) (accessor : Accessor) (holds : Bool)
    (complaint : Complaint) :
    Yields context pre (demandAt accessor holds complaint)
      (.ok (if holds then [] else [.ofComplaint (context.pathText ++ accessor.token) complaint []]))
      fun _ => pre := by
  unfold Check.demandAt
  split
  · next h =>
    exact pure fun _ hpre => hpre
  · refine after (readContext fun _ => rfl) fun path => ?_
    rintro V world ⟨rfl, hpre⟩
    rw [add_of_not_asserting _ ⟨context.holding V, world⟩ (Bool.eq_false_iff.1 hcollecting)]
    exact .ok hpre

/-- Complaints one step on, one for each of the names for which something does not hold. -/
theorem forM_demandAt (hcollecting : context.asserting = false) (holds : String → Bool)
    (complaint : Complaint) (names : List String) :
    Yields context pre (names.forM fun name => Check.demandAt (.key name) (holds name) complaint)
      (.ok ((names.filter fun name => !holds name).map fun name =>
        .ofComplaint (context.pathText ++ (Accessor.key name).token) complaint []))
      fun _ => pre := by
  induction names with
  | nil => exact pure fun _ hpre => hpre
  | cons name names ih =>
    have hfirst : Yields context pre (Check.demandAt (.key name) (holds name) complaint) _ _ :=
      demandAt hcollecting (.key name) (holds name) complaint
    have hadded : ∀ complain : String → Violation,
        ((name :: names).filter fun name => !holds name).map complain =
          (if holds name then [] else [complain name]) ++
            (names.filter fun name => !holds name).map complain := by
      intro complain
      cases hholds : holds name <;> simp [hholds]
    rw [hadded]
    exact hfirst.bind fun _ => ih

/-! ## Going in -/

theorem bracket {enter leave : Context → Context} {inner : Context} {m : Check σ α}
    (h : Yields inner pre m found post) (henter : ∀ V, enter (context.holding V) = inner.holding V)
    (hleave : ∀ V, leave (inner.holding V) = context.holding V) :
    Yields context pre (bracket enter leave m) found post := by
  intro V world hpre
  have hinner := h V world hpre
  simp only [Check.bracket, henter]
  revert hinner
  generalize m ⟨inner.holding V, world⟩ = r
  intro hinner
  cases hinner with
  | error => exact .error
  | ok hpost =>
    simp only [hleave]
    exact .ok hpost

theorem under {accessor : Accessor} {m : Check σ α}
    (h : Yields { context with path := accessor :: context.path } pre m found post) :
    Yields context pre (under accessor m) found post :=
  bracket h (fun _ => rfl) (fun _ => rfl)

/-- Into a container that the way has not come through. -/
theorem inside {ref : Ref} {m : Check σ Unit} {post : Unit → World σ → Prop}
    (hnew : context.originOf ref ∉ context.ancestors)
    (h : Yields { context with ancestors := context.originOf ref :: context.ancestors } pre m
      found post) : Yields context pre (inside ref m) found post := by
  refine after (readContext (f := fun c => c.originOf ref) fun _ => rfl) fun original => ?_
  refine after (readContext (f := fun c => c.ancestors) fun _ => rfl) fun ancestors => ?_
  rintro V world ⟨rfl, rfl, hpre⟩
  rw [if_neg hnew]
  exact bracket h (fun _ => rfl) (fun _ => rfl) V world hpre

/-- To a definition, where not too many are under way. -/
theorem visiting {m : Check σ α} (hfew : context.nesting < maxNesting)
    (h : Yields context.visited pre m found post) :
    Yields context pre (visiting m) found post := by
  refine after (readContext fun _ => rfl) fun nesting => ?_
  rintro V world ⟨rfl, hpre⟩
  rw [if_neg (Nat.not_le.2 hfew)]
  exact bracket h (fun _ => rfl) (fun _ => rfl) V world hpre

end Yields

end Conform.Check
