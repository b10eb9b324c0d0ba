import Mathlib.Order.Basic
import Conform.Proofs.Validation.Restoration
import Conform.Proofs.Value.Alike

/-!
# Two checks side by side

Two checks are compared step by step.  A scope says where the two stand: the context of
each, the worlds in which they may meet, and which containers stand for each other.  The
second follows the first when, from worlds that may meet, both come to such worlds again,
with the same violations added and with values that stand for each other, or with the
same fault.

Only the second check may be one that stops at the first violation while the first goes
on.  Then the comparison ends there: the first check keeps the violation whatever it does
afterwards, because it restores its context.

What is known of the two worlds may grow on the way.  How far it has grown is said by a
moment; what stood for each other at one moment does so later.

Comparing a check with itself gives an invariant of the check.

## Main definitions

* `Scope`: where two checks stand.
* `Scope.Ends`, `Scope.Follows`: how they may end, and that they do.

## Main results

* `Scope.Follows.bind`, `Scope.Follows.forM`, `Scope.Follows.foldlM`: steps in sequence.
* `Scope.Follows.under`, `Scope.Follows.inside`, `Scope.Follows.visiting`,
  `Scope.Follows.trial`: going in, and checking on the side.
-/

namespace Conform

/-- Two results that correspond, or the same fault. -/
inductive AlikeResult {ε α β : Type} (R : α → β → Prop) : Except ε α → Except ε β → Prop where
  | ok {a : α} {b : β} : R a b → AlikeResult R (.ok a) (.ok b)
  | error {fault : ε} : AlikeResult R (.error fault) (.error fault)

theorem AlikeResult.imp {ε α β : Type} {R S : α → β → Prop} (h : ∀ a b, R a b → S a b)
    {x : Except ε α} {y : Except ε β} (hxy : AlikeResult R x y) : AlikeResult S x y := by
  cases hxy with
  | ok hab => exact .ok (h _ _ hab)
  | error => exact .error

/-- Whenever a part of a check ends with a value, the value is of this kind. -/
def Check.Gives {σ α : Type} (m : Check σ α) (Q : α → Prop) : Prop :=
  ∀ session a after, m session = .ok a after → Q a

/-- Where two checks stand. -/
structure Scope (σ ι : Type) [Preorder ι] where
  /-- The context of the first check, up to its violations. -/
  left : Context
  /-- The context of the second. -/
  right : Context
  /-- The worlds in which the two may be at a moment. -/
  world : ι → World σ → World σ → Prop
  /-- The containers that stand for each other from a moment on. -/
  ref : ι → Ref → Ref → Prop
  /-- Whether the two may run out of depth. -/
  exhaustible : Prop
  ref_mono : ∀ {i j : ι} {r s : Ref}, i ≤ j → ref i r s → ref j r s
  pathText_eq : left.pathText = right.pathText
  asserting_of : left.asserting = true → right.asserting = true
  agree : ∀ {i : ι} {w₁ w₂ : World σ}, world i w₁ w₂ → Heap.Agree (ref i) w₁.heap w₂.heap
  store : ∀ {i : ι} {w₁ w₂ : World σ} {r s : Ref} {c d : Container}, world i w₁ w₂ →
    ref i r s → Container.Alike (ref i) c d →
    world i ⟨w₁.heap.store r c, w₁.env⟩ ⟨w₂.heap.store s d, w₂.env⟩

namespace Scope

open Check

variable {σ ι α β γ δ : Type} [Preorder ι]

/-- The values that stand for each other from a moment on. -/
abbrev value (K : Scope σ ι) (i : ι) : Value → Value → Prop := Value.Alike (K.ref i)

theorem value_mono (K : Scope σ ι) {i j : ι} (hij : i ≤ j) {v w : Value} (h : K.value i v w) :
    K.value j v w :=
  h.mono fun _ _ => K.ref_mono hij

/-- How two checks may end that began at a moment with the given violations. -/
inductive Ends (K : Scope σ ι) (i : ι) (P : ι → α → β → Prop) (V W : List Violation) :
    EStateM.Result ValidationError (Session σ) α → EStateM.Result ValidationError (Session σ) β →
      Prop where
  /-- Both with a value. -/
  | ok {a : α} {b : β} {added : List Violation} {j : ι} {w₁ w₂ : World σ} :
      i ≤ j → K.world j w₁ w₂ → (K.right.asserting = true → added = []) → P j a b →
      Ends K i P V W (.ok a ⟨K.left.holding (V ++ added), w₁⟩)
        (.ok b ⟨K.right.holding (W ++ added), w₂⟩)
  /-- Both with the same fault. -/
  | error {fault : ValidationError} {added : List Violation} {j : ι} {w₁ w₂ : World σ} :
      i ≤ j → K.world j w₁ w₂ → (K.right.asserting = true → added = []) →
      (fault = .exhausted → K.exhaustible) →
      Ends K i P V W (.error fault ⟨K.left.holding (V ++ added), w₁⟩)
        (.error fault ⟨K.right.holding (W ++ added), w₂⟩)
  /-- The second with the first violation of the first. -/
  | stopped {r : EStateM.Result ValidationError (Session σ) α} {violation : Violation}
      {added : List Violation} {world : World σ} {session : Session σ} :
      K.left.asserting = false → K.right.asserting = true →
      final r = ⟨K.left.holding (V ++ violation :: added), world⟩ →
      Ends K i P V W r (.error (.assertion violation) session)

/-- From a moment on, the two checks come to corresponding ends. -/
def Follows (K : Scope σ ι) (i : ι) (m₁ : Check σ α) (m₂ : Check σ β)
    (P : ι → α → β → Prop) : Prop :=
  ∀ j, i ≤ j → ∀ (V W : List Violation) (w₁ w₂ : World σ), K.world j w₁ w₂ →
    K.Ends j P V W (m₁ ⟨K.left.holding V, w₁⟩) (m₂ ⟨K.right.holding W, w₂⟩)

/-- From a moment on, two ways to change the world come to corresponding results. -/
def Runs (K : Scope σ ι) (i : ι) (m₁ : Run σ α) (m₂ : Run σ β) (P : ι → α → β → Prop) : Prop :=
  ∀ j, i ≤ j → ∀ w₁ w₂, K.world j w₁ w₂ →
    ∃ k, j ≤ k ∧ K.world k (m₁ w₁).2 (m₂ w₂).2 ∧ P k (m₁ w₁).1 (m₂ w₂).1

variable {K : Scope σ ι} {i j : ι}

theorem Runs.mono {m₁ : Run σ α} {m₂ : Run σ β} {P : ι → α → β → Prop} (hij : i ≤ j)
    (h : K.Runs i m₁ m₂ P) : K.Runs j m₁ m₂ P :=
  fun k hjk => h k (le_trans hij hjk)

/-- What began later, with more violations, began before, with fewer. -/
theorem Ends.weaken {P : ι → α → β → Prop} {V W added : List Violation}
    {r : EStateM.Result ValidationError (Session σ) α}
    {s : EStateM.Result ValidationError (Session σ) β} (hij : i ≤ j)
    (hadded : K.right.asserting = true → added = [])
    (h : K.Ends j P (V ++ added) (W ++ added) r s) : K.Ends i P V W r s := by
  cases h with
  | ok hjk hworld hmore hab =>
    -- Where the second check stops at a violation, nothing can have been added at all.
    rw [List.append_assoc, List.append_assoc]
    refine .ok (le_trans hij hjk) hworld (fun hassert => ?_) hab
    rw [hadded hassert, hmore hassert, List.append_nil]
  | error hjk hworld hmore hfault =>
    rw [List.append_assoc, List.append_assoc]
    refine .error (le_trans hij hjk) hworld (fun hassert => ?_) hfault
    rw [hadded hassert, hmore hassert, List.append_nil]
  | stopped hleft hright hfinal =>
    rw [hadded hright, List.append_nil] at hfinal
    exact .stopped hleft hright hfinal

/-- Both end with a value and no violations. -/
theorem Ends.ok_nil {P : ι → α → β → Prop} {V W : List Violation} {a : α} {b : β}
    {w₁ w₂ : World σ} (hij : i ≤ j) (hworld : K.world j w₁ w₂) (hab : P j a b) :
    K.Ends i P V W (.ok a ⟨K.left.holding V, w₁⟩) (.ok b ⟨K.right.holding W, w₂⟩) := by
  have hok : K.Ends i P V W (.ok a ⟨K.left.holding (V ++ []), w₁⟩)
      (.ok b ⟨K.right.holding (W ++ []), w₂⟩) := .ok hij hworld (fun _ => rfl) hab
  rwa [List.append_nil, List.append_nil] at hok

/-- Both end with a fault and no violations. -/
theorem Ends.error_nil {P : ι → α → β → Prop} {V W : List Violation} {fault : ValidationError}
    {w₁ w₂ : World σ} (hij : i ≤ j) (hworld : K.world j w₁ w₂)
    (hfault : fault = .exhausted → K.exhaustible) :
    K.Ends i P V W (.error fault ⟨K.left.holding V, w₁⟩)
      (.error fault ⟨K.right.holding W, w₂⟩) := by
  have herror : K.Ends i P V W (.error fault ⟨K.left.holding (V ++ []), w₁⟩)
      (.error fault ⟨K.right.holding (W ++ []), w₂⟩) := .error hij hworld (fun _ => rfl) hfault
  rwa [List.append_nil, List.append_nil] at herror

namespace Follows

/-! ## Steps -/

theorem mono {m₁ : Check σ α} {m₂ : Check σ β} {P : ι → α → β → Prop} (hij : i ≤ j)
    (h : K.Follows i m₁ m₂ P) : K.Follows j m₁ m₂ P :=
  fun k hjk => h k (le_trans hij hjk)

theorem ofRun {m₁ : Run σ α} {m₂ : Run σ β} {P : ι → α → β → Prop}
    (h : K.Runs i m₁ m₂ P) : K.Follows i (ofRun m₁) (ofRun m₂) P := by
  intro j hij V W w₁ w₂ hworld
  obtain ⟨k, hjk, hworld', hpost⟩ := h j hij w₁ w₂ hworld
  exact .ok_nil hjk hworld' hpost

theorem pure {a : α} {b : β} {P : ι → α → β → Prop} (h : ∀ j, i ≤ j → P j a b) :
    K.Follows i (pure a) (pure b) P :=
  fun j hij _ _ _ _ hworld => .ok_nil (le_refl j) hworld (h j hij)

theorem throw {fault : ValidationError} {P : ι → α → β → Prop}
    (hfault : fault = .exhausted → K.exhaustible) :
    K.Follows i (throw fault) (throw fault) P :=
  fun j _ _ _ _ _ hworld => .error_nil (le_refl j) hworld hfault

theorem readHeap {f : Heap → α} {g : Heap → β} {P : ι → α → β → Prop}
    (h : ∀ j, i ≤ j → ∀ w₁ w₂, K.world j w₁ w₂ → P j (f w₁.heap) (g w₂.heap)) :
    K.Follows i (readHeap f) (readHeap g) P :=
  fun j hij _ _ w₁ w₂ hworld => .ok_nil (le_refl j) hworld (h j hij w₁ w₂ hworld)

/-- What the first check always gives is given here. -/
theorem ensuring {m₁ : Check σ α} {m₂ : Check σ β} {P : ι → α → β → Prop} {Q : α → Prop}
    (h : K.Follows i m₁ m₂ P) (hgives : m₁.Gives Q) :
    K.Follows i m₁ m₂ fun j a b => P j a b ∧ Q a := by
  intro j hij V W w₁ w₂ hworld
  have hends := h j hij V W w₁ w₂ hworld
  have hgiven := hgives ⟨K.left.holding V, w₁⟩
  revert hends hgiven
  generalize m₁ ⟨K.left.holding V, w₁⟩ = r
  generalize m₂ ⟨K.right.holding W, w₂⟩ = s
  intro hends hgiven
  cases hends with
  | ok hjk hworld hadded hab => exact .ok hjk hworld hadded ⟨hab, hgiven _ _ rfl⟩
  | error hjk hworld hadded hfault => exact .error hjk hworld hadded hfault
  | stopped hleft hright hfinal => exact .stopped hleft hright hfinal

/-- What is read off a context must not hang on its violations. -/
theorem readContext {f : Context → α} {g : Context → β} {P : ι → α → β → Prop}
    (hf : ∀ V, f (K.left.holding V) = f K.left) (hg : ∀ V, g (K.right.holding V) = g K.right)
    (h : ∀ j, i ≤ j → P j (f K.left) (g K.right)) :
    K.Follows i (readContext f) (readContext g) P := by
  intro j hij V W w₁ w₂ hworld
  simp only [Check.readContext, hf, hg]
  exact .ok_nil (le_refl j) hworld (h j hij)

/-- Corresponding contents are put behind corresponding references. -/
theorem changeHeap {f g : Heap → Heap} {P : ι → Unit → Unit → Prop}
    (hpost : ∀ j, i ≤ j → P j () ())
    (h : ∀ j, i ≤ j → ∀ w₁ w₂, K.world j w₁ w₂ →
      K.world j ⟨f w₁.heap, w₁.env⟩ ⟨g w₂.heap, w₂.env⟩) :
    K.Follows i (changeHeap f) (changeHeap g) P :=
  ofRun fun j hij w₁ w₂ hworld => ⟨j, le_refl j, h j hij w₁ w₂ hworld, hpost j hij⟩

/-- **Steps in sequence.** -/
theorem bind {m₁ : Check σ α} {m₂ : Check σ β} {f₁ : α → Check σ γ} {f₂ : β → Check σ δ}
    {P : ι → α → β → Prop} {Q : ι → γ → δ → Prop} (hm : K.Follows i m₁ m₂ P)
    (hrestores : ∀ a, Restores (f₁ a))
    (hf : ∀ j, i ≤ j → ∀ a b, P j a b → K.Follows j (f₁ a) (f₂ b) Q) :
    K.Follows i (m₁ >>= f₁) (m₂ >>= f₂) Q := by
  intro j hij V W w₁ w₂ hworld
  have hfirst := hm j hij V W w₁ w₂ hworld
  simp only [Bind.bind, EStateM.bind]
  revert hfirst
  generalize m₁ ⟨K.left.holding V, w₁⟩ = r
  generalize m₂ ⟨K.right.holding W, w₂⟩ = s
  intro hfirst
  cases hfirst with
  | @ok a b added k w₁ w₂ hjk hworld hadded hab =>
    -- The rest begins where the first steps have come to, with what they have added.
    have hrest := hf k (le_trans hij hjk) a b hab k (le_refl k) (V ++ added) (W ++ added) w₁ w₂
      hworld
    exact hrest.weaken hjk hadded
  | error hjk hworld hadded hfault => exact .error hjk hworld hadded hfault
  | @stopped _ violation added world session hleft hright hfinal =>
    -- The second check has stopped; the first keeps the violation, since the rest of it
    -- restores the context.
    cases r with
    | ok a session₁ =>
      rw [final_ok] at hfinal
      subst hfinal
      obtain ⟨more, hcontext, -⟩ := hrestores a ⟨K.left.holding (V ++ violation :: added), world⟩
      simp only [Context.violations_holding, Context.holding_holding, List.append_assoc,
        List.cons_append] at hcontext
      exact .stopped hleft hright (congrArg (Session.mk · _) hcontext)
    | error fault session₁ => exact .stopped hleft hright hfinal

/-- Definitions are produced, or cannot be had for the same reason. -/
theorem ofForcing {m₁ : Forcing σ α} {m₂ : Forcing σ β} {P : ι → α → β → Prop}
    (hpost : ∀ {j k a b}, j ≤ k → P j a b → P k a b)
    (h : K.Runs i (Run.ofForcing m₁) (Run.ofForcing m₂) fun k => AlikeResult (P k)) :
    K.Follows i (Check.ofForcing m₁) (Check.ofForcing m₂) P := by
  refine bind (ofRun h) (fun outcome => ?_) ?_
  · cases outcome with
    | ok a => exact .pure a
    | error fault => exact .throw _
  intro j _ x y hxy
  cases hxy with
  | ok hab => exact pure fun k hjk => hpost hjk hab
  | error => exact throw fun h => nomatch h

theorem ite {c d : Prop} [Decidable c] [Decidable d] {m₁ m₁' : Check σ α} {m₂ m₂' : Check σ β}
    {P : ι → α → β → Prop} (hcd : c ↔ d) (h : c → K.Follows i m₁ m₂ P)
    (h' : ¬ c → K.Follows i m₁' m₂' P) :
    K.Follows i (if c then m₁ else m₁') (if d then m₂ else m₂') P := by
  by_cases hc : c
  · rw [if_pos hc, if_pos (hcd.1 hc)]
    exact h hc
  · rw [if_neg hc, if_neg fun hd => hc (hcd.2 hd)]
    exact h' hc

/-- **A loop over corresponding lists.** -/
theorem forM {R : α → β → Prop} {f : α → Check σ PUnit} {g : β → Check σ PUnit} {xs : List α}
    {ys : List β} (hxs : List.Forall₂ R xs ys) (hrestores : ∀ a, Restores (f a))
    (h : ∀ a b, R a b → K.Follows i (f a) (g b) fun _ _ _ => True) :
    K.Follows i (xs.forM f) (ys.forM g) fun _ _ _ => True := by
  induction hxs with
  | nil => exact pure fun _ _ => trivial
  | @cons a b xs ys hab _ ih =>
    refine bind (h a b hab) (fun _ => .forM fun a _ => hrestores a) ?_
    intro j hij _ _ _
    exact ih.mono hij

/-- **A fold over corresponding lists.** -/
theorem foldlM {V : ι → γ → δ → Prop} (hV : ∀ {j k c d}, j ≤ k → V j c d → V k c d)
    {R : α → β → Prop} {f : γ → α → Check σ γ} {g : δ → β → Check σ δ} {xs : List α}
    {ys : List β} (hxs : List.Forall₂ R xs ys) (hrestores : ∀ c, ∀ a ∈ xs, Restores (f c a))
    (h : ∀ j, i ≤ j → ∀ a b, R a b → ∀ c d, V j c d → K.Follows j (f c a) (g d b) V)
    {c : γ} {d : δ} (hcd : V i c d) : K.Follows i (xs.foldlM f c) (ys.foldlM g d) V := by
  induction hxs generalizing i c d with
  | nil => exact pure fun j hij => hV hij hcd
  | @cons a b xs ys hab _ ih =>
    have hrest : ∀ c, ∀ a ∈ xs, Restores (f c a) := fun c a ha =>
      hrestores c a (List.mem_cons_of_mem _ ha)
    rw [List.foldlM_cons, List.foldlM_cons]
    refine bind (h i (le_refl i) a b hab c d hcd) (fun c => .foldlM hrest c) ?_
    intro j hij c d hcd'
    exact ih hrest (fun k hjk => h k (le_trans hij hjk)) hcd'

/-! ## Violations -/

theorem add (violation : Violation) :
    K.Follows i (add violation) (add violation) fun _ _ _ => True := by
  intro j _ V W w₁ w₂ hworld
  by_cases hleft : K.left.asserting = true
  · have hright := K.asserting_of hleft
    rw [add_of_asserting violation ⟨K.left.holding V, w₁⟩ hleft,
      add_of_asserting violation ⟨K.right.holding W, w₂⟩ hright]
    exact .error_nil (le_refl j) hworld nofun
  · rw [add_of_not_asserting violation ⟨K.left.holding V, w₁⟩ hleft]
    by_cases hright : K.right.asserting = true
    · rw [add_of_asserting violation ⟨K.right.holding W, w₂⟩ hright]
      exact .stopped (Bool.eq_false_iff.2 hleft) hright (show _ = Session.mk _ w₁ from rfl)
    · rw [add_of_not_asserting violation ⟨K.right.holding W, w₂⟩ hright]
      exact .ok (le_refl j) hworld (fun h => absurd h hright) trivial

theorem report (complaint : Complaint) (inner : List (List Violation)) :
    K.Follows i (report complaint inner) (report complaint inner) fun _ _ _ => True := by
  refine bind (P := fun _ p q => p = q)
    (readContext (fun _ => rfl) (fun _ => rfl) fun _ _ => K.pathText_eq) (fun _ => .add _) ?_
  rintro j _ path _ rfl
  exact add _

theorem reportAt (accessor : Accessor) (complaint : Complaint) :
    K.Follows i (reportAt accessor complaint) (reportAt accessor complaint)
      fun _ _ _ => True := by
  refine bind (P := fun _ p q => p = q)
    (readContext (fun _ => rfl) (fun _ => rfl) fun _ _ => K.pathText_eq) (fun _ => .add _) ?_
  rintro j _ path _ rfl
  exact add _

theorem demand (holds : Bool) (complaint : Complaint) :
    K.Follows i (demand holds complaint) (demand holds complaint) fun _ _ _ => True :=
  ite Iff.rfl (fun _ => pure fun _ _ => trivial) fun _ => report _ _

theorem demandAt (accessor : Accessor) (holds : Bool) (complaint : Complaint) :
    K.Follows i (demandAt accessor holds complaint) (demandAt accessor holds complaint)
      fun _ _ _ => True :=
  ite Iff.rfl (fun _ => pure fun _ _ => trivial) fun _ => reportAt _ _

end Follows

/-! ## Going in

Going in changes the contexts and nothing else of the scope. -/

/-- The same scope in other contexts. -/
def within (K : Scope σ ι) (left right : Context) (hpath : left.pathText = right.pathText)
    (hasserting : left.asserting = true → right.asserting = true) : Scope σ ι :=
  { K with left := left, right := right, pathText_eq := hpath, asserting_of := hasserting }

/-- The scope one step on. -/
def under (K : Scope σ ι) (accessor : Accessor) : Scope σ ι :=
  K.within { K.left with path := accessor :: K.left.path }
    { K.right with path := accessor :: K.right.path }
    (congrArg (· ++ accessor.token) K.pathText_eq) K.asserting_of

/-- The scope inside two containers. -/
def inside (K : Scope σ ι) (r s : Ref) : Scope σ ι :=
  K.within { K.left with ancestors := K.left.originOf r :: K.left.ancestors }
    { K.right with ancestors := K.right.originOf s :: K.right.ancestors }
    K.pathText_eq K.asserting_of

/-- The scope in which a definition has been taken up. -/
def visiting (K : Scope σ ι) : Scope σ ι :=
  K.within { K.left with visits := K.left.path.length :: K.left.visits }
    { K.right with visits := K.right.path.length :: K.right.visits }
    K.pathText_eq K.asserting_of

namespace Follows

theorem bracket {left right : Context} {hpath : left.pathText = right.pathText}
    {hasserting : left.asserting = true → right.asserting = true}
    {enter₁ leave₁ enter₂ leave₂ : Context → Context} {m₁ : Check σ α} {m₂ : Check σ β}
    {P : ι → α → β → Prop} (h : (K.within left right hpath hasserting).Follows i m₁ m₂ P)
    (hleft : left.asserting = K.left.asserting) (hright : right.asserting = K.right.asserting)
    (henter₁ : ∀ V, enter₁ (K.left.holding V) = left.holding V)
    (hleave₁ : ∀ V, leave₁ (left.holding V) = K.left.holding V)
    (henter₂ : ∀ W, enter₂ (K.right.holding W) = right.holding W)
    (hleave₂ : ∀ W, leave₂ (right.holding W) = K.right.holding W) :
    K.Follows i (bracket enter₁ leave₁ m₁) (bracket enter₂ leave₂ m₂) P := by
  intro j hij V W w₁ w₂ hworld
  have hinner : (K.within left right hpath hasserting).Ends j P V W (m₁ ⟨left.holding V, w₁⟩)
      (m₂ ⟨right.holding W, w₂⟩) := h j hij V W w₁ w₂ hworld
  simp only [Check.bracket, henter₁, henter₂]
  revert hinner
  generalize m₁ ⟨left.holding V, w₁⟩ = r
  generalize m₂ ⟨right.holding W, w₂⟩ = s
  intro hinner
  cases hinner with
  | ok hjk hworld' hadded hab =>
    simp only [within, hleave₁, hleave₂]
    exact .ok hjk hworld' (fun h => hadded (hright.trans h)) hab
  | error hjk hworld' hadded hfault =>
    simp only [within, hleave₁, hleave₂]
    exact .error hjk hworld' (fun h => hadded (hright.trans h)) hfault
  | @stopped _ violation added world session hl hr hfinal =>
    -- The way out of the first check keeps the violation at which the second has stopped.
    have hlast : (⟨leave₁ (final r).context, (final r).world⟩ : Session σ) =
        ⟨K.left.holding (V ++ violation :: added), world⟩ := by
      rw [hfinal]
      exact congrArg (Session.mk · world) (hleave₁ _)
    refine .stopped (hleft.symm.trans hl) (hright.symm.trans hr) (Eq.trans ?_ hlast)
    cases r <;> rfl

theorem under (accessor : Accessor) {m₁ : Check σ α} {m₂ : Check σ β}
    {P : ι → α → β → Prop} (h : (K.under accessor).Follows i m₁ m₂ P) :
    K.Follows i (Check.under accessor m₁) (Check.under accessor m₂) P :=
  bracket h rfl rfl (fun _ => rfl) (fun _ => rfl) (fun _ => rfl) (fun _ => rfl)

/-- Where one way has come through the container so has the other. -/
theorem inside {r s : Ref} {m₁ m₂ : Check σ Unit}
    (hguard : K.left.originOf r ∈ K.left.ancestors ↔ K.right.originOf s ∈ K.right.ancestors)
    (hrestores : Restores m₁)
    (h : K.left.originOf r ∉ K.left.ancestors →
      (K.inside r s).Follows i m₁ m₂ fun _ _ _ => True) :
    K.Follows i (Check.inside r m₁) (Check.inside s m₂) fun _ _ _ => True := by
  -- The origin and the ancestors are read one after the other, and then compared.
  refine bind (P := fun _ a b => a = K.left.originOf r ∧ b = K.right.originOf s)
    (readContext (fun _ => rfl) (fun _ => rfl) fun _ _ => ⟨rfl, rfl⟩) (fun _ => ?_) ?_
  · exact .bind (.readContext _) fun _ =>
      .ite (.report _ _) (.bracket (fun _ => ⟨rfl, rfl⟩) (fun _ _ => rfl) hrestores)
  rintro j hij _ _ ⟨rfl, rfl⟩
  refine bind (P := fun _ a b => a = K.left.ancestors ∧ b = K.right.ancestors)
    (readContext (fun _ => rfl) (fun _ => rfl) fun _ _ => ⟨rfl, rfl⟩) (fun _ => ?_) ?_
  · exact .ite (.report _ _) (.bracket (fun _ => ⟨rfl, rfl⟩) (fun _ _ => rfl) hrestores)
  rintro k hjk _ _ ⟨rfl, rfl⟩
  refine ite hguard (fun _ => report _ _) fun hnew => ?_
  exact bracket ((h hnew).mono (le_trans hij hjk)) rfl rfl (fun _ => rfl) (fun _ => rfl)
    (fun _ => rfl) (fun _ => rfl)

/-- As many definitions are under way, or too many, here as there. -/
theorem visiting {m₁ : Check σ α} {m₂ : Check σ β} {P : ι → α → β → Prop}
    (hnesting : maxNesting ≤ K.left.nesting ↔ maxNesting ≤ K.right.nesting)
    (hrestores : Restores m₁)
    (h : ¬ maxNesting ≤ K.left.nesting → K.visiting.Follows i m₁ m₂ P) :
    K.Follows i (Check.visiting m₁) (Check.visiting m₂) P := by
  refine bind (P := fun _ a b => a = K.left.nesting ∧ b = K.right.nesting)
    (readContext (fun _ => rfl) (fun _ => rfl) fun _ _ => ⟨rfl, rfl⟩) (fun _ => ?_) ?_
  · exact .ite (.bind (.readContext _) fun _ => .throw _)
      (.bracket (fun _ => ⟨rfl, rfl⟩) (fun _ _ => rfl) hrestores)
  rintro j hij _ _ ⟨rfl, rfl⟩
  refine ite hnesting (fun _ => ?_) fun hfew => ?_
  · refine bind (P := fun _ p q => p = q)
      (readContext (fun _ => rfl) (fun _ => rfl) fun _ _ => K.pathText_eq) (fun _ => .throw _) ?_
    rintro k _ path _ rfl
    exact throw fun h => nomatch h
  · exact bracket ((h hfew).mono hij) rfl rfl (fun _ => rfl) (fun _ => rfl) (fun _ => rfl)
      (fun _ => rfl)

end Follows

/-! ## Checking on the side

What is tried on the side is compared in a scope of its own, which may know more of the
copies.  What it comes to must be worlds in which the two may be afterwards. -/

/-- A scope for what is tried on the side from the given worlds. -/
structure Side {κ : Type} [Preorder κ] (K : Scope σ ι) (i : ι) (L : Scope σ κ) (l : κ)
    (copies₁ copies₂ : List (Ref × Ref)) (w₁ w₂ : World σ) : Prop where
  left : L.left = K.left.fork copies₁
  right : L.right = K.right.fork copies₂
  world : L.world l w₁ w₂
  exhaustible : L.exhaustible → K.exhaustible
  back : ∀ m, l ≤ m → ∀ w₁ w₂, L.world m w₁ w₂ → ∃ j, i ≤ j ∧ K.world j w₁ w₂

/-- **What is tried on the side comes to the same violations.** -/
theorem Follows.trial {κ : Type} [Preorder κ] {L : Scope σ κ} {l : κ}
    {copies₁ copies₂ : List (Ref × Ref)} {w₁ w₂ : World σ} {m₁ : Check σ α} {m₂ : Check σ β}
    {P : κ → α → β → Prop} (hside : K.Side i L l copies₁ copies₂ w₁ w₂)
    (h : L.Follows l m₁ m₂ P) (V W : List Violation) :
    K.Ends i (fun _ => Eq) V W (trial copies₁ m₁ ⟨K.left.holding V, w₁⟩)
      (trial copies₂ m₂ ⟨K.right.holding W, w₂⟩) := by
  obtain ⟨hleft, hright, hworld, hexhaustible, hback⟩ := hside
  have hinner := h l (le_refl l) [] [] w₁ w₂ hworld
  rw [hleft, hright, Context.holding_fork, Context.holding_fork] at hinner
  simp only [Check.trial, Context.fork_holding]
  revert hinner
  generalize m₁ ⟨K.left.fork copies₁, w₁⟩ = r
  generalize m₂ ⟨K.right.fork copies₂, w₂⟩ = s
  intro hinner
  cases hinner with
  | @ok a b added k w₁ w₂ hlk hworld' _ _ =>
    -- Both begin without violations, and so what they have added is what they have found.
    obtain ⟨j, hij, hworld''⟩ := hback k hlk w₁ w₂ hworld'
    refine .ok_nil hij hworld'' ?_
    rw [Context.violations_holding, Context.violations_holding]
  | @error fault added k w₁ w₂ hlk hworld' _ hfault =>
    obtain ⟨j, hij, hworld''⟩ := hback k hlk w₁ w₂ hworld'
    exact .error_nil hij hworld'' fun h => hexhaustible (hfault h)
  | stopped _ hasserting _ =>
    -- What is tried on the side never stops at a violation.
    rw [hright] at hasserting
    cases hasserting

end Scope

end Conform
