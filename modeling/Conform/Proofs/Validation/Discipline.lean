import Conform.Proofs.Validation.Invariant

/-!
# What holds at every call

A check calls itself for every definition that it takes up, on the value, on its parts
and on copies of it.  To say that something holds at every such call, the check is put
beside one that stops with a refusal at the first call at which it does not: where the
two come to the same whatever the refusal, no call is refused.

A discipline says how an invariant is handed on from a call to the calls in it.  A call
on a copy may use an invariant of its own, so a discipline chooses one for each context.

## Main definitions

* `checkGuarded`: the check that stops at a call that is not permitted.
* `Discipline`: an invariant for each context, handed on from call to call.

## Main results

* `Discipline.follows`: where the discipline is kept, no call is refused, and the
  invariant is kept.
* `Discipline.checkGuarded_eq`: so the guarded check is the check.
-/

namespace Conform

variable {σ α : Type}

/-! ## Calls that are not permitted -/

namespace Check

open Classical in
/-- Stops with a refusal where something does not hold. -/
noncomputable def guarding (permitted : Session σ → Prop) (refusal : ValidationError)
    (m : Check σ α) : Check σ α := fun session =>
  if permitted session then m session else .error refusal session

theorem guarding_of_permitted {permitted : Session σ → Prop} {refusal : ValidationError}
    {m : Check σ α} {session : Session σ} (h : permitted session) :
    guarding permitted refusal m session = m session := if_pos h

end Check

/-- Where nothing is refused, the comparison is with the check that is guarded. -/
theorem Scope.Follows.guarding {ι β : Type} [Preorder ι] {K : Scope σ ι} {i : ι}
    {permitted : Session σ → Prop} {refusal : ValidationError} {m₁ : Check σ α} {m₂ : Check σ β}
    {P : ι → α → β → Prop}
    (hpermitted : ∀ j, i ≤ j → ∀ w₁ w₂, K.world j w₁ w₂ → ∀ violations,
      permitted ⟨K.right.holding violations, w₂⟩)
    (h : K.Follows i m₁ m₂ P) : K.Follows i m₁ (Check.guarding permitted refusal m₂) P := by
  intro j hij V W w₁ w₂ hworld
  rw [Check.guarding_of_permitted (hpermitted j hij w₁ w₂ hworld W)]
  exact h j hij V W w₁ w₂ hworld

theorem Invariant.follows_guarding {ι : Type} [Preorder ι] {I : Invariant ι} {i : ι}
    {exhaustible : Prop} {context : Context} {permitted : Session σ → Prop}
    {refusal : ValidationError} {m₁ m₂ : Check σ α} {P : ι → α → α → Prop}
    (hpermitted : ∀ j, i ≤ j → ∀ world, I.holds j world.heap → ∀ violations,
      permitted ⟨context.holding violations, world⟩)
    (h : (I.scope σ exhaustible context).Follows i m₁ m₂ P) :
    (I.scope σ exhaustible context).Follows i m₁ (Check.guarding permitted refusal m₂) P := by
  refine .guarding ?_ h
  rintro j hij w _ ⟨rfl, hholds⟩
  exact hpermitted j hij w hholds

/-- The check of a value within a bound, which stops with a refusal at a call that is not
permitted. -/
noncomputable def checkGuarded (host : Host σ) (permitted : Value → Definition → Session σ → Prop)
    (refusal : ValidationError) : Nat → Value → Definition → Check σ Value
  | 0, value, definition => Check.guarding (permitted value definition) refusal (throw .exhausted)
  | depth + 1, value, definition =>
    Check.guarding (permitted value definition) refusal <| Check.visiting <|
      Check.node host (checkGuarded host permitted refusal depth) value definition

/-- Where every call is permitted, there is nothing to guard. -/
theorem checkGuarded_eq_checkWithin {host : Host σ}
    {permitted : Value → Definition → Session σ → Prop} {refusal : ValidationError}
    (h : ∀ value definition session, permitted value definition session) (depth : Nat) :
    checkGuarded host permitted refusal depth = checkWithin host depth := by
  induction depth with
  | zero =>
    funext value definition session
    exact Check.guarding_of_permitted (h value definition session)
  | succ depth ih =>
    funext value definition session
    rw [checkGuarded, Check.guarding_of_permitted (h value definition session), ih]
    rfl

/-! ## Disciplines -/

/-- The context in which a definition has been taken up. -/
def Context.visited (context : Context) : Context :=
  { context with visits := context.path.length :: context.visits }

/-- The context one step on from a container. -/
def Context.entered (context : Context) (ref : Ref) (accessor : Accessor) : Context :=
  { context with
    path := accessor :: context.path
    ancestors := context.originOf ref :: context.ancestors }

/-- So many definitions may still be taken up at the present place. -/
structure Context.Roomy (context : Context) (room : Nat) : Prop where
  visits : ∀ visit ∈ context.visits, visit ≤ context.path.length
  room : context.nesting + room ≤ maxNesting

namespace Context.Roomy

variable {context : Context} {room : Nat}

theorem start (options : Options) (hle : room ≤ maxNesting) :
    (Context.start options).Roomy room where
  visits := nofun
  room := (Nat.zero_add room).symm ▸ hle

theorem mono {less : Nat} (h : context.Roomy room) (hle : less ≤ room) : context.Roomy less :=
  ⟨h.visits, Nat.le_trans (Nat.add_le_add_left hle _) h.room⟩

theorem nesting_lt (h : context.Roomy (room + 1)) : context.nesting < maxNesting := by
  have := h.room
  omega

theorem fork (h : context.Roomy room) (copies : List (Ref × Ref)) :
    (context.fork copies).Roomy room :=
  ⟨h.visits, h.room⟩

/-- Taking up a definition takes some of the room. -/
theorem visited (h : context.Roomy (room + 1)) : context.visited.Roomy room where
  visits := by
    intro visit hvisit
    rcases List.mem_cons.1 hvisit with rfl | hvisit
    · exact Nat.le_refl _
    · exact h.visits visit hvisit
  room := by
    have hnesting : context.visited.nesting = context.nesting + 1 := by
      simp [Context.nesting, Context.visited]
    have := h.room
    omega

/-- One step on there is all the room. -/
theorem entered (h : context.Roomy room) (ref : Ref) (accessor : Accessor) {more : Nat}
    (hle : more ≤ maxNesting) : (context.entered ref accessor).Roomy more where
  visits := fun visit hvisit => Nat.le_succ_of_le (h.visits visit hvisit)
  room := by
    -- Whatever is under way began at a place with a shorter path.
    have hnone : (context.entered ref accessor).nesting = 0 := by
      cases hvisits : context.visits with
      | nil => simp [Context.nesting, Context.entered, hvisits]
      | cons visit rest =>
        have hle := h.visits visit (hvisits ▸ List.mem_cons_self ..)
        have hne : visit ≠ context.path.length + 1 := by omega
        simp [Context.nesting, Context.entered, hvisits, hne]
    omega

end Context.Roomy

/-- Which invariant goes with a context, given the depth that is left, and how it is
handed on from a call to the calls in it. -/
structure Discipline (host : Host σ) (good : Definition → Prop) (ι : Type) [Preorder ι] where
  fits : Nat → Invariant ι → ι → Context → Prop
  /-- What holds at every call. -/
  permitted : Value → Definition → Session σ → Prop
  /-- Whether the depth may be used up. -/
  exhaustible : Prop
  mono : ∀ {depth : Nat} {I : Invariant ι} {i j : ι} {context : Context},
    fits depth I i context → i ≤ j → fits depth I j context
  keeps : ∀ {depth : Nat} {I : Invariant ι} {i : ι} {context : Context} {definition : Definition},
    fits depth I i context → good definition → I.Keeps host definition
  permits : ∀ {depth : Nat} {I : Invariant ι} {i : ι} {context : Context} {world : World σ}
    {value : Value} {definition : Definition}, fits depth I i context → I.holds i world.heap →
    I.Owns i value → definition.Throughout host good →
    ∀ violations, permitted value definition ⟨context.holding violations, world⟩
  spent : ∀ {I : Invariant ι} {i : ι} {context : Context}, fits 0 I i context → exhaustible
  visited : ∀ {depth : Nat} {I : Invariant ι} {i : ι} {context : Context},
    fits (depth + 1) I i context → ¬ maxNesting ≤ context.nesting → fits depth I i context.visited
  entered : ∀ {depth : Nat} {I : Invariant ι} {i : ι} {context : Context} {ref : Ref},
    fits depth I i context → I.own i ref → context.originOf ref ∉ context.ancestors →
    ∀ accessor, fits depth I i (context.entered ref accessor)
  fork : ∀ {depth : Nat} {I : Invariant ι} {i : ι} {context : Context} {heap : Heap}
    {value : Value}, fits depth I i context → I.holds i heap → I.Owns i value →
    ∃ (I' : Invariant ι) (l : ι), fits depth I' l (context.fork (value.copyWithOrigins heap).1.2) ∧
      I'.holds l (value.copyWithOrigins heap).2 ∧ I'.Owns l (value.copyWithOrigins heap).1.1 ∧
      ∀ m, l ≤ m → ∀ heap', I'.holds m heap' → ∃ j, i ≤ j ∧ I.holds j heap'

namespace Discipline

variable {host : Host σ} {good : Definition → Prop} {ι : Type} [Preorder ι]

/-- **Where a discipline is kept, no call is refused**, and the invariant is kept.  Where
the depth cannot be used up, more of it makes no difference. -/
theorem follows (D : Discipline host good ι) (refusal : ValidationError) (depth extra : Nat)
    (hextra : D.exhaustible → extra = 0) {I : Invariant ι} {i : ι} {context : Context}
    {value : Value} {definition : Definition} (hfits : D.fits depth I i context)
    (hvalue : I.Owns i value) (hdefinition : definition.Throughout host good) :
    (I.scope σ D.exhaustible context).Follows i
      (checkWithin host (extra + depth) value definition)
      (checkGuarded host D.permitted refusal depth value definition)
      (I.scope σ D.exhaustible context).value := by
  have hpermitted : ∀ {depth : Nat} {I : Invariant ι} {i : ι} {context : Context} {value : Value}
      {definition : Definition}, D.fits depth I i context → I.Owns i value →
      definition.Throughout host good → ∀ j, i ≤ j → ∀ world, I.holds j world.heap →
      ∀ violations, D.permitted value definition ⟨context.holding violations, world⟩ :=
    fun hfits hvalue hdefinition j hij world hholds =>
      D.permits (D.mono hfits hij) hholds (hvalue.mono hij) hdefinition
  -- The invariant changes from call to call, and so the induction is for all of them.
  induction depth generalizing I i context value definition with
  | zero =>
    obtain rfl := hextra (D.spent hfits)
    exact Invariant.follows_guarding (hpermitted hfits hvalue hdefinition)
      (.throw fun _ => D.spent hfits)
  | succ depth ih =>
    refine Invariant.follows_guarding (hpermitted hfits hvalue hdefinition) ?_
    refine Scope.Follows.visiting Iff.rfl (.node _ (checkWithin_restores host _) _)
      fun hfew => ?_
    have hvisited := D.visited hfits hfew
    refine Invariant.follows_node (fun _ => D.keeps hvisited) ?_ hdefinition hvalue
    -- The calls inside the node are at the same place, one step on, or on a copy.
    constructor
    case restores => exact checkWithin_restores host _
    case guard =>
      rintro j _ r _ ⟨rfl, -⟩
      exact Iff.rfl
    case here =>
      rintro j hij v _ hvw d _ ⟨rfl, hd⟩
      obtain ⟨rfl, hv⟩ := Invariant.alike_iff.1 hvw
      exact ih (D.mono hvisited hij) hv hd
    case below =>
      rintro j hij r _ ⟨rfl, hown⟩ hnew accessor k hjk v _ hvw d _ ⟨rfl, hd⟩
      obtain ⟨rfl, hv⟩ := Invariant.alike_iff.1 hvw
      have hentered := D.entered (D.mono hvisited hij) hown hnew accessor
      exact ih (D.mono hentered hjk) hv hd
    case aside =>
      rintro j hij v _ hvw d _ ⟨rfl, hd⟩
      obtain ⟨rfl, hv⟩ := Invariant.alike_iff.1 hvw
      -- The trial has an invariant of its own, from which there is a way back.
      refine Invariant.follows_tryAlternative (κ := ι) fun k hjk heap hholds => ?_
      obtain ⟨I', l, hfits', hholds', hcopy, hback⟩ :=
        D.fork (D.mono hvisited (le_trans hij hjk)) hholds (hv.mono hjk)
      exact ⟨I', l, hholds', hback, ih hfits' hcopy hd⟩

/-- **In a world in which the invariant holds the guarded check is the check**, also with more
depth, and the depth is not used up where it cannot be. -/
theorem checkGuarded_eq (D : Discipline host good ι) (refusal : ValidationError)
    (depth extra : Nat) (hextra : D.exhaustible → extra = 0) {I : Invariant ι} {i : ι}
    {context : Context} {value : Value} {definition : Definition} {world : World σ}
    (hfits : D.fits depth I i context) (hvalue : I.Owns i value)
    (hdefinition : definition.Throughout host good) (hholds : I.holds i world.heap) :
    checkGuarded host D.permitted refusal depth value definition ⟨context, world⟩ =
        checkWithin host (extra + depth) value definition ⟨context, world⟩ ∧
      ((∃ session, checkWithin host (extra + depth) value definition ⟨context, world⟩ =
        .error .exhausted session) → D.exhaustible) := by
  have hkept := D.follows refusal depth extra hextra hfits hvalue hdefinition
  obtain ⟨hsame, -, hexhausted⟩ := Invariant.eq_of_follows hkept
    (fun _ _ _ h => (Invariant.alike_iff.1 h).1) hholds
  exact ⟨hsame, hexhausted⟩

end Discipline

end Conform
