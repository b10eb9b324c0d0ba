import Conform.Validation.Engine

/-!
# The context is restored

Whatever a part of a check does on its way, it leaves the context as it found it, but for
violations added at the end, and none are added where the first one ends the check.  The
law holds of every way to end: with a value, with the fault of a definition, with an
assertion, and out of depth.

## Main definitions

* `Context.holding`: a context with other violations.
* `Check.final`: the session in which a check ends.
* `Check.Restores`: the law.

## Main results

* `Check.Restores.bind`, `Check.Restores.bracket`: the law is passed on.
* `Check.Restores.node`, `checkWithin_restores`: it holds of every check.
* `context_checkWithin`: what that says of the path, the containers on it, the copies known,
  the definitions under way and the violations.
-/

namespace Conform

/-! ## Contexts up to their violations -/

/-- The context with the given violations in place of its own. -/
def Context.holding (context : Context) (violations : List Violation) : Context :=
  { context with violations }

namespace Context

variable (context : Context) (violations : List Violation)

@[simp] theorem violations_holding : (context.holding violations).violations = violations := rfl

@[simp] theorem origins_holding : (context.holding violations).origins = context.origins := rfl

@[simp] theorem holding_holding (more : List Violation) :
    (context.holding violations).holding more = context.holding more := rfl

@[simp] theorem holding_self : context.holding context.violations = context := rfl

@[simp] theorem fork_holding (copies : List (Ref × Ref)) :
    (context.holding violations).fork copies = context.fork copies := rfl

@[simp] theorem holding_fork (copies : List (Ref × Ref)) :
    (context.fork copies).holding [] = context.fork copies := rfl

end Context

namespace Check

variable {σ α β : Type}

/-- The session in which a part of a check ends. -/
def final : EStateM.Result ValidationError (Session σ) α → Session σ
  | .ok _ session => session
  | .error _ session => session

@[simp] theorem final_ok (a : α) (session : Session σ) :
    final (.ok a session : EStateM.Result ValidationError (Session σ) α) = session := rfl

@[simp] theorem final_error (fault : ValidationError) (session : Session σ) :
    final (.error fault session : EStateM.Result ValidationError (Session σ) α) = session := rfl

/-- Where the first violation ends the check, it does. -/
theorem add_of_asserting (violation : Violation) (session : Session σ)
    (h : session.context.asserting = true) :
    add violation session = .error (.assertion violation) session := if_pos h

/-- Elsewhere it is recorded after those there are. -/
theorem add_of_not_asserting (violation : Violation) (session : Session σ)
    (h : ¬ session.context.asserting = true) :
    add violation session =
      .ok () ⟨session.context.holding (session.context.violations ++ [violation]),
        session.world⟩ := if_neg h

/-- A complaint, after which the value stays as it is. -/
theorem report_return (complaint : Complaint) (inner : List (List Violation)) (a : α)
    (session : Session σ) :
    (do report complaint inner; return a : Check σ α) session =
      if session.context.asserting = true then
        .error (.assertion (.ofComplaint session.context.pathText complaint inner)) session
      else
        .ok a ⟨session.context.holding (session.context.violations ++
          [.ofComplaint session.context.pathText complaint inner]), session.world⟩ := by
  have hadd : (do report complaint inner; return a : Check σ α) session =
      (do add (.ofComplaint session.context.pathText complaint inner); return a : Check σ α)
        session := rfl
  rw [hadd]
  simp only [Bind.bind, EStateM.bind]
  by_cases h : session.context.asserting = true
  · rw [if_pos h, add_of_asserting _ session h]
  · rw [if_neg h, add_of_not_asserting _ session h]
    rfl

/-- The context is as before, but for violations added at the end; where the first one
ends the check, there are none of these. -/
def Restores (m : Check σ α) : Prop :=
  ∀ session : Session σ, ∃ added : List Violation,
    (final (m session)).context =
        session.context.holding (session.context.violations ++ added) ∧
      (session.context.asserting = true → added = [])

namespace Restores

/-! ## The law is passed on -/

theorem of_context_eq {m : Check σ α}
    (h : ∀ session, (final (m session)).context = session.context) : Restores m :=
  fun session => ⟨[], by simp [h session]⟩

theorem pure (a : α) : Restores (pure a : Check σ α) := of_context_eq fun _ => rfl

theorem throw (fault : ValidationError) : Restores (throw fault : Check σ α) :=
  of_context_eq fun _ => rfl

theorem ofRun (m : Run σ α) : Restores (ofRun m) := of_context_eq fun _ => rfl

theorem readHeap (f : Heap → α) : Restores (readHeap f : Check σ α) := of_context_eq fun _ => rfl

theorem readContext (f : Context → α) : Restores (readContext f : Check σ α) :=
  of_context_eq fun _ => rfl

theorem changeHeap (f : Heap → Heap) : Restores (changeHeap f : Check σ Unit) := ofRun _

theorem bind {m : Check σ α} {f : α → Check σ β} (hm : Restores m) (hf : ∀ a, Restores (f a)) :
    Restores (m >>= f) := by
  intro session
  obtain ⟨added, hcontext, hadded⟩ := hm session
  cases h : m session with
  | ok a session₁ =>
    rw [h, final_ok] at hcontext
    obtain ⟨more, hcontext', hmore⟩ := hf a session₁
    rw [show (m >>= f) session = f a session₁ by simp [Bind.bind, EStateM.bind, h]]
    rw [hcontext] at hcontext' hmore
    refine ⟨added ++ more, ?_, fun hasserting => ?_⟩
    · rw [hcontext', Context.holding_holding, Context.violations_holding, List.append_assoc]
    · rw [hadded hasserting, hmore hasserting, List.append_nil]
  | error fault session₁ =>
    rw [h, final_error] at hcontext
    rw [show (m >>= f) session = .error fault session₁ by simp [Bind.bind, EStateM.bind, h]]
    exact ⟨added, hcontext, hadded⟩

theorem ite {c : Prop} [Decidable c] {m m' : Check σ α} (hm : Restores m) (hm' : Restores m') :
    Restores (if c then m else m') := by
  split
  · exact hm
  · exact hm'

theorem forM {f : α → Check σ PUnit} {xs : List α} (h : ∀ x ∈ xs, Restores (f x)) :
    Restores (xs.forM f) := by
  induction xs with
  | nil => exact pure _
  | cons x xs ih =>
    exact bind (h x (List.mem_cons_self ..)) fun _ =>
      ih fun y hy => h y (List.mem_cons_of_mem _ hy)

theorem foldlM {f : β → α → Check σ β} {xs : List α} (h : ∀ b, ∀ x ∈ xs, Restores (f b x))
    (b : β) : Restores (xs.foldlM f b) := by
  induction xs generalizing b with
  | nil => exact pure _
  | cons x xs ih =>
    rw [List.foldlM_cons]
    exact bind (h b x (List.mem_cons_self ..)) fun _ =>
      ih (fun b y hy => h b y (List.mem_cons_of_mem _ hy)) _

theorem ofForcing (m : Forcing σ α) : Restores (ofForcing m) := by
  refine bind (ofRun _) fun outcome => ?_
  cases outcome with
  | ok a => exact pure a
  | error fault => exact throw _

/-- What is changed on the way in is changed back on the way out. -/
theorem bracket {enter leave : Context → Context} {m : Check σ α}
    (henter : ∀ context : Context, (enter context).violations = context.violations ∧
      (enter context).asserting = context.asserting)
    (hleave : ∀ (context : Context) (violations : List Violation),
      leave ((enter context).holding violations) = context.holding violations)
    (hm : Restores m) : Restores (bracket enter leave m) := by
  intro session
  obtain ⟨added, hcontext, hadded⟩ := hm { session with context := enter session.context }
  rw [(henter session.context).1] at hcontext
  rw [(henter session.context).2] at hadded
  refine ⟨added, ?_, hadded⟩
  simp only [Check.bracket]
  cases h : m { session with context := enter session.context } with
  | ok a session₁ =>
    rw [h, final_ok] at hcontext
    simp only [final_ok, hcontext, hleave]
  | error fault session₁ =>
    rw [h, final_error] at hcontext
    simp only [final_error, hcontext, hleave]

/-! ## Violations -/

theorem add (violation : Violation) : Restores (add violation : Check σ Unit) := by
  intro session
  by_cases h : session.context.asserting = true
  · rw [add_of_asserting violation session h]
    exact ⟨[], by simp⟩
  · rw [add_of_not_asserting violation session h]
    exact ⟨[violation], rfl, fun hasserting => absurd hasserting h⟩

theorem report (complaint : Complaint) (inner : List (List Violation)) :
    Restores (report complaint inner : Check σ Unit) :=
  bind (readContext _) fun _ => add _

theorem reportAt (accessor : Accessor) (complaint : Complaint) :
    Restores (reportAt accessor complaint : Check σ Unit) :=
  bind (readContext _) fun _ => add _

theorem demand (holds : Bool) (complaint : Complaint) :
    Restores (demand holds complaint : Check σ Unit) :=
  ite (pure _) (report _ _)

theorem demandAt (accessor : Accessor) (holds : Bool) (complaint : Complaint) :
    Restores (demandAt accessor holds complaint : Check σ Unit) :=
  ite (pure _) (reportAt _ _)

/-! ## Going in -/

theorem under (accessor : Accessor) {m : Check σ α} (hm : Restores m) :
    Restores (under accessor m) :=
  bracket (fun _ => ⟨rfl, rfl⟩) (fun _ _ => rfl) hm

theorem inside (ref : Ref) {m : Check σ Unit} (hm : Restores m) : Restores (inside ref m) :=
  bind (readContext _) fun _ => bind (readContext _) fun _ =>
    ite (report _ _) (.bracket (fun _ => ⟨rfl, rfl⟩) (fun _ _ => rfl) hm)

theorem visiting {m : Check σ α} (hm : Restores m) : Restores (visiting m) :=
  bind (readContext _) fun _ =>
    ite (bind (readContext _) fun _ => throw _)
      (.bracket (fun _ => ⟨rfl, rfl⟩) (fun _ _ => rfl) hm)

/-- A check on the side leaves nothing in the context, whatever it does. -/
theorem trial (copies : List (Ref × Ref)) (m : Check σ α) : Restores (trial copies m) := by
  refine of_context_eq fun session => ?_
  simp only [Check.trial]
  split <;> rfl

/-! ## Keywords -/

section Keywords

variable {host : Host σ} {recurse : Recurse σ} (resolved : Resolved) (value : Value)

theorem type : Restores (type resolved value : Check σ Value) := by
  unfold Check.type
  split
  · exact pure _
  · split
    · exact pure _
    · exact bind (report _ _) fun _ => pure _
  · exact bind (demand _ _) fun _ => pure _

theorem oneOf : Restores (oneOf resolved value : Check σ Value) := by
  unfold Check.oneOf
  split
  · exact pure _
  · exact bind (readHeap _) fun _ => bind (demand _ _) fun _ => pure _

theorem bounds : Restores (bounds resolved value : Check σ Value) := by
  unfold Check.bounds
  split
  · exact pure _
  · exact bind (forM fun _ _ => demand _ _) fun _ => pure _
  · exact bind (demand _ _) fun _ => pure _

theorem withObject {m : Ref → Check σ Unit} (hm : ∀ ref, Restores (m ref)) :
    Restores (withObject resolved value m) := by
  unfold Check.withObject
  split
  · exact bind (hm _) fun _ => pure _
  · exact bind (demand _ _) fun _ => pure _

theorem require : Restores (require resolved value : Check σ Value) := by
  unfold Check.require
  split
  · exact pure _
  · exact withObject _ _ fun _ => forM fun _ _ => bind (readHeap _) fun _ => demandAt _ _ _

theorem restrict : Restores (restrict resolved value : Check σ Value) := by
  unfold Check.restrict
  split
  · exact pure _
  · exact withObject _ _ fun _ => forM fun _ _ => bind (readHeap _) fun _ => demandAt _ _ _

theorem custom : Restores (custom host resolved value) := by
  unfold Check.custom
  split
  · exact pure _
  · refine bind (ofRun _) fun result => ?_
    cases result with
    | ok value => exact pure _
    | error reason => exact bind (report _ _) fun _ => pure _

variable (hrecurse : ∀ value definition, Restores (recurse value definition))
include hrecurse

theorem field (ref : Ref) (name : String) (definition : Definition) :
    Restores (field recurse ref name definition) :=
  bind (readHeap _) fun _ => bind (under _ (hrecurse _ _)) fun _ =>
    ite (changeHeap _) (pure _)

theorem item (ref : Ref) (definition : Definition) (i : Nat) :
    Restores (item recurse ref definition value i) :=
  bind (under _ (hrecurse _ _)) fun _ => changeHeap _

theorem entry (ref : Ref) (definition : Definition) (name : String) :
    Restores (entry recurse ref definition name value) :=
  bind (under _ (hrecurse _ _)) fun _ => changeHeap _

theorem schema : Restores (schema host recurse resolved value) := by
  unfold Check.schema
  split
  · exact pure _
  · refine withObject _ _ fun ref => bind (ofForcing _) fun declared => inside _ ?_
    refine bind (forM fun _ _ => field hrecurse _ _ _) fun _ => ite ?_ (pure _)
    exact bind (readHeap _) fun _ => forM fun _ _ => demandAt _ _ _

theorem items : Restores (items recurse resolved value) := by
  unfold Check.items
  split
  · exact pure _
  · refine bind (inside _ ?_) fun _ => pure _
    exact bind (readHeap _) fun _ => forM fun _ _ => item _ hrecurse _ _ _
  · refine bind (inside _ ?_) fun _ => pure _
    exact bind (readHeap _) fun _ => forM fun _ _ => entry _ hrecurse _ _ _
  · exact bind (report _ _) fun _ => pure _

omit hrecurse in
theorem tryAlternative (alternative : Definition) :
    Restores (tryAlternative recurse value alternative) :=
  bind (ofRun _) fun _ => trial _ _

theorem alternatives (failures : List (List Violation)) (definitions : List Definition) :
    Restores (alternatives recurse value failures definitions) := by
  induction definitions generalizing failures with
  | nil => exact bind (report _ _) fun _ => pure _
  | cons alternative rest ih =>
    exact bind (tryAlternative _ _) fun _ => ite (hrecurse _ _) (ih _)

theorem either : Restores (either recurse resolved value) := by
  unfold Check.either
  split
  · exact pure _
  · exact alternatives _ hrecurse _ _

theorem keyword {demand : Demand σ} (h : demand ∈ keywords host recurse) :
    Restores (demand resolved value) := by
  simp only [keywords, List.mem_cons, List.not_mem_nil, or_false] at h
  rcases h with rfl | rfl | rfl | rfl | rfl | rfl | rfl | rfl | rfl
  · exact type _ _
  · exact oneOf _ _
  · exact bounds _ _
  · exact either _ _ hrecurse
  · exact schema _ _ hrecurse
  · exact require _ _
  · exact restrict _ _
  · exact items _ _ hrecurse
  · exact custom _ _

omit hrecurse in
theorem supply : Restores (supply host resolved value) := by
  unfold Check.supply
  split
  · exact bind (readContext _) fun _ =>
      ite (bind (readContext _) fun _ => throw _) (ofRun _)
  · exact pure _

theorem demands : Restores (demands host recurse resolved value) :=
  ite (bind (demand _ _) fun _ => pure _) (foldlM (fun _ _ h => keyword _ _ hrecurse h) _)

theorem node (definition : Definition) : Restores (node host recurse value definition) :=
  bind (readContext _) fun _ => bind (ofForcing _) fun _ => bind (supply _ _) fun _ =>
    demands _ _ hrecurse

end Keywords

end Restores

end Check

/-- **Every check restores its context.** -/
theorem checkWithin_restores {σ : Type} (host : Host σ) (depth : Nat) (value : Value)
    (definition : Definition) : Check.Restores (checkWithin host depth value definition) := by
  induction depth generalizing value definition with
  | zero => exact .throw _
  | succ depth ih => exact .visiting (.node _ ih _)

/-- **However a check ends, the context is as it was when it began.**  The path, the
containers on it, the copies that are known and the definitions under way are the same, and
the violations are those there were with others after them; where the first violation ends
the check, there are no others. -/
theorem context_checkWithin {σ : Type} (host : Host σ) (depth : Nat) (value : Value)
    (definition : Definition) (session : Session σ) :
    let before := session.context
    let after := (Check.final (checkWithin host depth value definition session)).context
    after.path = before.path ∧ after.ancestors = before.ancestors ∧
      after.origins = before.origins ∧ after.visits = before.visits ∧
      ∃ added, after.violations = before.violations ++ added ∧
        (before.asserting = true → added = []) := by
  intro before after
  obtain ⟨added, hcontext, hadded⟩ :=
    checkWithin_restores host depth value definition session
  have hafter : after = before.holding (before.violations ++ added) := hcontext
  rw [hafter]
  exact ⟨rfl, rfl, rfl, rfl, added, rfl, hadded⟩

end Conform
