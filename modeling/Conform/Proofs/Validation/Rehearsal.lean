import Conform.Proofs.Validation.Frame
import Conform.Proofs.Validation.Renaming

/-!
# Trials foretell

The trial of an alternative on a copy comes to what the alternative would come to on the
value itself, at the same place, from no violations and without ending at one: to the
same violations or the same fault, and the copy is left as the value would be.  This holds
for values that share containers or contain themselves, and also inside other trials,
because a context tells a copy from a stranger by its origin.

So a node with alternatives takes the first one that is clean on the value itself, and if
there is none, it complains with what all of them find on the value itself.

## Main definitions

* `Session.Sound`: a session and a value that know no container outside the heap.
* `Heap.Isomorphic`: values in two heaps with the same graph.
* `Check.Mirrors`: two checks that come to the same in different containers.
* `Check.Settles`: how alternatives are settled by what they find on the value itself.

## Main results

* `Discipline.inHeap`: all sessions in a run are sound.
* `Check.mirrors_copy`: the check of a copy mirrors the check of the value.
* `Check.either_foretold`: a node with alternatives is settled by what they find.
-/

namespace Conform

variable {σ : Type}

/-! ## Sound sessions -/

/-- No container holds one outside the heap. -/
def Heap.Closed (heap : Heap) : Prop := ∀ parent child, heap.Child parent child → child < heap.size

/-- All containers that a context knows are in a heap of the given size. -/
structure Context.Within (context : Context) (size : Nat) : Prop where
  ancestors : ∀ ref ∈ context.ancestors, ref < size
  origins : ∀ origin ∈ context.origins, origin.1 < size ∧ origin.2 < size

/-- A session and a value that know no container outside the heap. -/
structure Session.Sound (session : Session σ) (value : Value) : Prop where
  holds : session.world.heap.Holds value
  within : session.context.Within session.world.heap.size

theorem Heap.Closed.holds {heap : Heap} (h : heap.Closed) {value : Value}
    (hvalue : ∀ ref, value.ref? = some ref → ref < heap.size) : heap.Holds value := by
  intro ref hreach
  cases hreach with
  | root hroot => exact hvalue ref hroot
  | child _ hchild => exact h _ ref hchild

theorem Heap.Closed.copy {heap : Heap} (h : heap.Closed) (value : Value) :
    (value.copyWithOrigins heap).2.Closed := by
  intro parent child hchild
  rw [Value.size_copyWithOrigins]
  rcases Value.child_copyWithOrigins value heap hchild with ⟨-, hold⟩ | ⟨-, _, hcopied⟩
  · exact Nat.lt_add_right _ (h parent child hold)
  · exact hcopied.lt

theorem Heap.ref_lt_copy {heap : Heap} {value : Value} {ref : Ref}
    (href : (value.copyWithOrigins heap).1.1.ref? = some ref) :
    ref < (value.copyWithOrigins heap).2.size := by
  obtain ⟨_, hcopied⟩ := Value.ref?_copyWithOrigins value heap href
  rw [Value.size_copyWithOrigins]
  exact hcopied.lt

namespace Context.Within

variable {context : Context} {size : Nat}

theorem mono {size' : Nat} (hle : size ≤ size') (h : context.Within size) :
    context.Within size' where
  ancestors := fun ref href => Nat.lt_of_lt_of_le (h.ancestors ref href) hle
  origins := fun origin horigin =>
    ⟨Nat.lt_of_lt_of_le (h.origins origin horigin).1 hle,
      Nat.lt_of_lt_of_le (h.origins origin horigin).2 hle⟩

/-- A container in the heap has its origin there. -/
theorem originOf_lt (h : context.Within size) {ref : Ref} (hlt : ref < size) :
    context.originOf ref < size := by
  unfold Context.originOf
  split
  · next origin hfind => exact (h.origins origin (List.mem_of_find?_eq_some hfind)).2
  · exact hlt

theorem entered (h : context.Within size) {ref : Ref} (hlt : ref < size) (accessor : Accessor) :
    (context.entered ref accessor).Within size where
  ancestors := by
    intro ancestor hancestor
    rcases List.mem_cons.1 hancestor with rfl | hbefore
    · exact h.originOf_lt hlt
    · exact h.ancestors ancestor hbefore
  origins := h.origins

theorem fork {heap : Heap} (h : context.Within heap.size) {value : Value}
    (hvalue : heap.Holds value) :
    (context.fork (value.copyWithOrigins heap).1.2).Within
      (value.copyWithOrigins heap).2.size where
  ancestors := by
    intro ref href
    rw [Value.size_copyWithOrigins]
    exact Nat.lt_add_right _ (h.ancestors ref href)
  origins := by
    intro origin horigin
    refine ⟨Context.lt_of_mem_origins_fork (fun o ho => (h.origins o ho).1) horigin, ?_⟩
    rw [Value.size_copyWithOrigins]
    rw [Context.origins_fork] at horigin
    rcases List.mem_append.1 horigin with hold | hnew
    · exact Nat.lt_add_right _ (h.origins origin hold).2
    · obtain ⟨⟨copy, original⟩, hmem, rfl⟩ := List.mem_map.1 hnew
      have hcopied := (Value.mem_copyWithOrigins value heap).1 hmem
      have hreach := Heap.mem_reach_iff.1 hcopied.mem
      exact Nat.lt_add_right _ (h.originOf_lt (hvalue _ hreach))

end Context.Within

/-! ## All sessions in a run are sound -/

/-- All containers are in the heap, and all of the heap is owned. -/
def Invariant.inHeap : Invariant Nat where
  holds := fun size heap => heap.size = size ∧ heap.Closed
  own := fun size ref => ref < size
  own_mono := fun hij hlt => Nat.lt_of_lt_of_le hlt hij
  closed := by
    rintro _ heap parent child ⟨rfl, hclosed⟩ - hchild
    exact hclosed parent child hchild
  store := by
    rintro _ heap ref container ⟨rfl, hclosed⟩ - hcontainer
    refine ⟨Heap.size_store .., fun parent child hchild => ?_⟩
    obtain ⟨part, hpart, href⟩ := hchild
    rw [Heap.size_store]
    rw [Heap.children, Heap.fetch_store] at hpart
    split at hpart
    · exact hcontainer part hpart child href
    · exact hclosed parent child ⟨part, hpart, href⟩

/-- Repeatable definitions keep to the heap, in particular those that are written out. -/
theorem Definition.Repeatable.keeps_inHeap {host : Host σ} {definition : Definition}
    (h : definition.Repeatable host) : Invariant.inHeap.Keeps host definition := by
  cases definition with
  | shorthand type => trivial
  | deferred thunk => trivial
  | node keywords =>
    refine ⟨fun fallback hfallback _ j _ world hholds => ?_, fun transform hcustom => ?_⟩
    · obtain ⟨rfl, hclosed⟩ := hholds
      cases fallback with
      | produced code => exact absurd hfallback (h.fallback keywords code rfl)
      | literal json =>
        obtain ⟨count, hgrown, -⟩ := Heap.grown_ofJson json world.heap world.heap
        have hle : world.heap.size ≤ (Value.ofJson json world.heap).2.size :=
          hgrown.size_left ▸ Nat.le_add_right _ _
        refine ⟨_, hle, ⟨rfl, fun parent child hchild => ?_⟩,
          fun ref href => (Heap.new_of_ref?_ofJson href).2⟩
        -- What is new holds what is new, and what was there holds what it held.
        by_cases hnew : world.heap.size ≤ parent
        · exact (Heap.new_of_child_ofJson hnew hchild).2
        · obtain ⟨part, hpart, href⟩ := hchild
          have hold := hgrown.fetch_left parent (Nat.not_le.1 hnew)
          change part ∈ ((Value.ofJson json world.heap).2.fetch parent).children at hpart
          rw [hold] at hpart
          exact Nat.lt_of_lt_of_le (hclosed parent child ⟨part, hpart, href⟩) hle
    · rw [h.custom keywords rfl] at hcustom
      cases hcustom

/-- **All sessions in a run are sound**, if defaults and transforms keep to the heap. -/
def Discipline.inHeap (host : Host σ) :
    Discipline host (Invariant.inHeap.Keeps host) Nat where
  fits := fun _ I size context => I = Invariant.inHeap ∧ context.Within size
  permitted := fun value _ session => session.Sound value
  exhaustible := True
  mono := fun ⟨hI, hwithin⟩ hij => ⟨hI, hwithin.mono hij⟩
  keeps := fun ⟨hI, _⟩ hgood => hI ▸ hgood
  permits := by
    rintro _ _ _ context world value _ ⟨rfl, hwithin⟩ ⟨rfl, hclosed⟩ howns - violations
    exact ⟨hclosed.holds howns, hwithin.ancestors, hwithin.origins⟩
  spent := fun _ => trivial
  visited := fun ⟨hI, hwithin⟩ _ => ⟨hI, hwithin.ancestors, hwithin.origins⟩
  entered := by
    rintro _ _ _ context ref ⟨rfl, hwithin⟩ hown - accessor
    exact ⟨rfl, hwithin.entered hown accessor⟩
  fork := by
    rintro _ _ _ context heap value ⟨rfl, hwithin⟩ ⟨rfl, hclosed⟩ howns
    refine ⟨Invariant.inHeap, (value.copyWithOrigins heap).2.size,
      ⟨rfl, hwithin.fork (hclosed.holds howns)⟩, ⟨rfl, hclosed.copy value⟩,
      fun _ href => Heap.ref_lt_copy href, fun m hm heap' hholds => ⟨m, ?_, hholds⟩⟩
    rw [Value.size_copyWithOrigins] at hm
    exact Nat.le_trans (Nat.le_add_right _ _) hm

/-! ## A copy in place of the value

The copy is made in a heap to which containers may have been added, and the value may be
checked in another such heap. -/

/-- Every copy stands for its original, and both sides know the containers of the first
heap by their numbers. -/
def Renaming.ofCopy {base left right : Heap} (value : Value)
    (hreach : ∀ ref ∈ left.reach value, ref < base.size) (hleft : base.size ≤ left.size)
    (hright : base.size ≤ right.size) : Renaming where
  old := fun copy original => Ref.Copied (left.reach value) left.size original copy
  base := left.size + (left.reach value).length
  base' := right.size
  low := base.size
  unique :=
    ⟨fun _ _ _ h h' => (Ref.Copied.biUnique (left.nodup_reach value)).2 h h',
      fun _ _ _ h h' => (Ref.Copied.biUnique (left.nodup_reach value)).1 h h'⟩
  lt := fun _ original hcopied =>
    ⟨hcopied.lt, Nat.lt_of_lt_of_le (hreach original hcopied.mem) hright⟩
  low_le := ⟨Nat.le_trans hleft (Nat.le_add_right _ _), hright⟩

/-- **The check of a copy and the check of the value go in step.** -/
theorem Check.ends_copy {host : Host σ} {context : Context} {base left right : Heap}
    {value : Value} (hvalue : base.Holds value)
    (hwithin : context.Within base.size) (hleft : (Invariant.untouched base).holds .still left)
    (hright : (Invariant.untouched base).holds .still right) {alternative : Definition}
    (halternative : alternative.Throughout host (Definition.Repeatable host)) (depth : Nat)
    (env env' : σ) :
    ∃ (ρ : Renaming) (h : ρ.Stands 0 (context.fork (value.copyWithOrigins left).1.2) context),
      Value.Alike (ρ.ref 0) (value.copyWithOrigins left).1.1 value ∧
      (h.scope σ).Ends 0 (h.scope σ).value [] context.violations
        (checkWithin host depth (value.copyWithOrigins left).1.1 alternative
          ⟨context.fork (value.copyWithOrigins left).1.2,
            ⟨(value.copyWithOrigins left).2, env⟩⟩)
        (checkWithin host depth value alternative ⟨context, ⟨right, env'⟩⟩) := by
  have hreach : ∀ ref ∈ left.reach value, ref < base.size := fun _ hmem =>
    hvalue _ (Invariant.reachable_of_untouched hvalue hleft (Heap.mem_reach_iff.1 hmem))
  let ρ : Renaming := .ofCopy value hreach hleft.1 hright.1
  have hfresh : ∀ origin ∈ context.origins, origin.1 < left.size := fun origin horigin =>
    Nat.lt_of_lt_of_le (hwithin.origins origin horigin).1 hleft.1
  have hself : ∀ ref, ref < base.size → ρ.ident ref ref := fun ref hlt => .inl ⟨rfl, hlt⟩
  have hold : ∀ copy original, ρ.ref 0 copy original →
      Ref.Copied (left.reach value) left.size original copy :=
    fun _ _ hrs => hrs.resolve_right fun ⟨_, hlt, _⟩ => Nat.not_lt_zero _ hlt
  have hnew : ∀ copy original, Ref.Copied (left.reach value) left.size original copy →
      ρ.ref 0 copy original := fun _ _ => .inl
  -- A copy is known by the origin of its original, which is the origin on the other side.
  have hstands : ρ.Stands 0 (context.fork (value.copyWithOrigins left).1.2) context := by
    refine ⟨rfl, rfl, rfl, ?_, nofun, fun origin horigin => ?_, fun origin horigin => ?_, ?_⟩
    · exact List.forall₂_same.2 fun ref href => hself ref (hwithin.ancestors ref href)
    · have hlt := Context.lt_of_mem_origins_fork hfresh horigin
      rwa [Value.size_copyWithOrigins] at hlt
    · exact Nat.lt_of_lt_of_le (hwithin.origins origin horigin).1 hright.1
    · intro copy original hrs
      have hcopied := hold copy original hrs
      rw [Context.originOf_fork_of_copied hfresh hcopied]
      exact hself _ (hwithin.originOf_lt (hreach original hcopied.mem))
  have halike : Value.Alike (ρ.ref 0) (value.copyWithOrigins left).1.1 value :=
    (value.alike_copyWithOrigins left).symm.mono hnew
  -- The copy holds what the original held in the first heap, and still holds in the second.
  have hworld : ρ.World 0 (⟨(value.copyWithOrigins left).2, env⟩ : World σ) ⟨right, env'⟩ := by
    refine ⟨value.size_copyWithOrigins left, rfl, fun copy original hrs => ?_⟩
    have hcopied := hold copy original hrs
    have hlt := hreach original hcopied.mem
    have hagree := (value.agree_copyWithOrigins left hcopied).symm.mono hnew
    rwa [Invariant.fetch_eq_of_untouched hleft hlt,
      ← Invariant.fetch_eq_of_untouched hright hlt] at hagree
  exact ⟨ρ, hstands, halike, hstands.follows depth halike halternative 0 (Nat.le_refl _) []
    context.violations _ _ hworld⟩

/-! ## What trials foretell -/

/-- Values in two heaps with the same graph: their containers are paired off one to one,
and pairs hold corresponding values. -/
def Heap.Isomorphic (left : Heap) (vs : List Value) (right : Heap) (ws : List Value) : Prop :=
  ∃ ref, Relator.BiUnique ref ∧ Heap.Agree ref left right ∧ List.Forall₂ (Value.Alike ref) vs ws

namespace Check

/-- Two checks that come to the same violations or to the same fault, and that leave the
values which they began with, and those which they give, with the same graph. -/
inductive Mirrors (v w : Value) : EStateM.Result ValidationError (Session σ) Value →
    EStateM.Result ValidationError (Session σ) Value → Prop where
  | ok {a b : Value} {session session' : Session σ} :
      session.context.violations = session'.context.violations →
      session.world.heap.Isomorphic [v, a] session'.world.heap [w, b] →
      Mirrors v w (.ok a session) (.ok b session')
  | error {fault : ValidationError} {session session' : Session σ} :
      session.world.heap.Isomorphic [v] session'.world.heap [w] →
      Mirrors v w (.error fault session) (.error fault session')

/-- What a part of a check comes to, whatever the session in which it ends. -/
def result {α : Type} : EStateM.Result ValidationError (Session σ) α → Except ValidationError α
  | .ok a _ => .ok a
  | .error fault _ => .error fault

/-- What an alternative finds on the value itself, at the same place, from no violations
and without ending at one. -/
def findings (recurse : Recurse σ) (value : Value) (session : Session σ)
    (alternative : Definition) : Except ValidationError (List Violation) :=
  result (trial [] (recurse value alternative) session)

/-- Alternatives none of which is clean, with what each finds. -/
def Fails (recurse : Recurse σ) (value : Value) (session : Session σ) :
    List Definition → List (List Violation) → Prop :=
  List.Forall₂ fun alternative violations =>
    findings recurse value session alternative = .ok violations ∧ violations ≠ []

theorem Fails.exists_of_mem {recurse : Recurse σ} {value : Value} {session : Session σ}
    {definitions : List Definition} {inner : List (List Violation)}
    (h : Fails recurse value session definitions inner) {alternative : Definition}
    (hmem : alternative ∈ definitions) :
    ∃ violations, findings recurse value session alternative = .ok violations ∧
      violations ≠ [] := by
  unfold Fails at h
  induction h with
  | nil => cases hmem
  | @cons _ violations _ _ hfirst _ ih =>
    rcases List.mem_cons.1 hmem with rfl | hmem
    · exact ⟨violations, hfirst⟩
    · exact ih hmem

/-- How alternatives are settled by what they find on the value itself.  All that trials
leave behind is new containers. -/
inductive Settles (recurse : Recurse σ) (value : Value) (session : Session σ) :
    List Definition → EStateM.Result ValidationError (Session σ) Value → Prop where
  /-- The first clean alternative is taken, and there is no complaint. -/
  | clean {before rest : List Definition} {inner : List (List Violation)}
      {alternative : Definition} {middle after : Session σ} {result : Value} :
      Fails recurse value session before inner →
      findings recurse value session alternative = .ok [] →
      middle.context = session.context →
      (Invariant.untouched session.world.heap).holds .still middle.world.heap →
      recurse value alternative middle = .ok result after → after.context = session.context →
      Settles recurse value session (before ++ alternative :: rest) (.ok result after)
  /-- If there is none, one complaint holds what all have found. -/
  | failed {definitions : List Definition} {inner : List (List Violation)} {world : World σ} :
      Fails recurse value session definitions inner → session.context.asserting = false →
      (Invariant.untouched session.world.heap).holds .still world.heap →
      Settles recurse value session definitions
        (.ok value ⟨session.context.holding (session.context.violations ++
          [.ofComplaint session.context.pathText .noAlternative inner]), world⟩)
  /-- Where the check stops at the first violation, it stops at this one. -/
  | stopped {definitions : List Definition} {inner : List (List Violation)} {world : World σ} :
      Fails recurse value session definitions inner → session.context.asserting = true →
      (Invariant.untouched session.world.heap).holds .still world.heap →
      Settles recurse value session definitions
        (.error (.assertion (.ofComplaint session.context.pathText .noAlternative inner))
          ⟨session.context, world⟩)
  /-- A fault before any clean alternative is a fault of the whole. -/
  | faulty {before rest : List Definition} {inner : List (List Violation)}
      {alternative : Definition} {fault : ValidationError} {after : Session σ} :
      Fails recurse value session before inner →
      findings recurse value session alternative = .error fault →
      after.context = session.context →
      (Invariant.untouched session.world.heap).holds .still after.world.heap →
      Settles recurse value session (before ++ alternative :: rest) (.error fault after)

theorem result_trial {α : Type} (copies : List (Ref × Ref)) (m : Check σ α) (session : Session σ) :
    result (trial copies m session) =
      (result (m ⟨session.context.fork copies, session.world⟩)).map fun _ =>
        (final (m ⟨session.context.fork copies, session.world⟩)).context.violations := by
  simp only [trial]
  cases m ⟨session.context.fork copies, session.world⟩ <;> rfl

theorem fork_fork (context : Context) (copies : List (Ref × Ref)) :
    (context.fork []).fork copies = context.fork copies := by
  simp [Context.fork, Context.originOf]

theorem Mirrors.result_eq {v w : Value}
    {r s : EStateM.Result ValidationError (Session σ) Value} (h : Mirrors v w r s) :
    ((result r).map fun _ => (final r).context.violations) =
      (result s).map fun _ => (final s).context.violations := by
  cases h with
  | ok hviolations _ => exact congrArg Except.ok hviolations
  | error _ => rfl

section Sound

variable {host : Host σ} {value : Value} {alternative : Definition} {session middle : Session σ}

/-- **The check of a copy mirrors the check of the value**, also when containers have been
added before the copy is made. -/
theorem mirrors_copy (hsound : session.Sound value) (hcontext : middle.context = session.context)
    (hmiddle : (Invariant.untouched session.world.heap).holds .still middle.world.heap)
    (halternative : alternative.Throughout host (Definition.Repeatable host)) (depth : Nat) :
    Mirrors (value.copyWithOrigins middle.world.heap).1.1 value
      (checkWithin host depth (value.copyWithOrigins middle.world.heap).1.1 alternative
        ⟨middle.context.fork (value.copyWithOrigins middle.world.heap).1.2,
          ⟨(value.copyWithOrigins middle.world.heap).2, middle.world.env⟩⟩)
      (checkWithin host depth value alternative ⟨session.context.fork [], session.world⟩) := by
  have hwithin : (session.context.fork []).Within session.world.heap.size := by
    refine ⟨hsound.within.ancestors, fun origin horigin => ?_⟩
    rw [Context.origins_fork, List.map_nil, List.append_nil] at horigin
    exact hsound.within.origins origin horigin
  obtain ⟨ρ, hstands, halike, hends⟩ := ends_copy hsound.holds hwithin hmiddle
    Invariant.holds_untouched_self halternative depth middle.world.env session.world.env
  rw [hcontext, ← fork_fork]
  revert hends
  generalize checkWithin host depth (value.copyWithOrigins middle.world.heap).1.1 alternative _ = r
  generalize checkWithin host depth value alternative _ = s
  intro hends
  -- What was paired off in the beginning is paired off at the end.
  cases hends with
  | @ok a b _ j _ _ _ hworld _ hab =>
    refine .ok rfl ⟨ρ.ref j, Renaming.biUnique_ref, hworld.agree, .cons ?_ (.cons hab .nil)⟩
    exact halike.mono fun _ _ => Renaming.ref_mono (Nat.zero_le j)
  | @error _ _ j _ _ _ hworld _ _ =>
    refine .error ⟨ρ.ref j, Renaming.biUnique_ref, hworld.agree, .cons ?_ .nil⟩
    exact halike.mono fun _ _ => Renaming.ref_mono (Nat.zero_le j)
  | stopped _ hasserting _ => cases hasserting

/-- **A trial comes to what the alternative finds on the value itself.** -/
theorem result_tryAlternative (hsound : session.Sound value)
    (hcontext : middle.context = session.context)
    (hmiddle : (Invariant.untouched session.world.heap).holds .still middle.world.heap)
    (halternative : alternative.Throughout host (Definition.Repeatable host)) (depth : Nat) :
    result (tryAlternative (checkWithin host depth) value alternative middle) =
      findings (checkWithin host depth) value session alternative := by
  rw [findings, tryAlternative_apply, result_trial, result_trial]
  exact (mirrors_copy hsound hcontext hmiddle halternative depth).result_eq

/-- **An alternative that is clean on a copy is clean on the value**, and there it is
checked without a complaint. -/
theorem ok_of_clean (hsound : session.Sound value) (hcontext : middle.context = session.context)
    (hmiddle : (Invariant.untouched session.world.heap).holds .still middle.world.heap)
    (halternative : alternative.Throughout host (Definition.Repeatable host)) {depth : Nat}
    {after : Session σ}
    (hclean : tryAlternative (checkWithin host depth) value alternative middle = .ok [] after) :
    ∃ value' last, checkWithin host depth value alternative after = .ok value' last ∧
      last.context = session.context := by
  have hlocal : alternative.Throughout host (Definition.Local host) :=
    halternative.imp fun _ h => h.local
  have hsame := (context_tryAlternative hclean).trans hcontext
  have hviolations := congrArg result hclean
  rw [tryAlternative_apply, result_trial, hcontext] at hviolations
  obtain ⟨context', ⟨heap, env⟩⟩ := after
  obtain rfl : context' = session.context := hsame
  have hafter : (Invariant.untouched session.world.heap).holds .still heap :=
    untouched_tryAlternative hclean hlocal hmiddle
  obtain ⟨ρ, hstands, -, hends⟩ := ends_copy hsound.holds hsound.within hmiddle
    hafter halternative depth middle.world.env env
  revert hviolations hends
  generalize checkWithin host depth (value.copyWithOrigins middle.world.heap).1.1 alternative _ = r
  generalize checkWithin host depth value alternative _ = s
  intro hviolations hends
  -- The trial found nothing, so the run on the value adds nothing and does not stop.
  cases hends with
  | @ok _ b added =>
    obtain rfl : added = [] := Except.ok.inj hviolations
    refine ⟨b, _, rfl, ?_⟩
    rw [List.append_nil]
    rfl
  | error => cases hviolations
  | @stopped r _ _ _ _ _ _ hfinal =>
    cases r with
    | error fault last => cases hviolations
    | ok a last =>
      rw [final_ok] at hfinal
      subst hfinal
      cases hviolations

/-- Alternatives whose trials fail fail on the value itself, with the same violations. -/
theorem Failed.fails {depth : Nat} {definitions : List Definition} {after : Session σ}
    {inner : List (List Violation)}
    (h : Failed (checkWithin host depth) value definitions middle inner after)
    (hsound : session.Sound value) (hcontext : middle.context = session.context)
    (hmiddle : (Invariant.untouched session.world.heap).holds .still middle.world.heap)
    (hdefinitions : ∀ d ∈ definitions, d.Throughout host (Definition.Repeatable host)) :
    Fails (checkWithin host depth) value session definitions inner := by
  induction h with
  | nil => exact .nil
  | @cons first rest middle next after violations inner htry hviolations _ ih =>
    have hfirst := hdefinitions first (List.mem_cons_self ..)
    refine .cons ⟨?_, hviolations⟩ (ih ((context_tryAlternative htry).trans hcontext)
      (untouched_tryAlternative htry (hfirst.imp fun _ h => h.local) hmiddle)
      fun d hd => hdefinitions d (List.mem_cons_of_mem _ hd))
    rw [← result_tryAlternative hsound hcontext hmiddle hfirst, htry]
    rfl

/-- After others have failed, a trial comes to what its alternative finds on the value
itself. -/
theorem Failed.next {depth : Nat} {before rest : List Definition} {inner : List (List Violation)}
    {r : EStateM.Result ValidationError (Session σ) (List Violation)}
    (hfailed : Failed (checkWithin host depth) value before session inner middle)
    (htry : tryAlternative (checkWithin host depth) value alternative middle = r)
    (hsound : session.Sound value) (hdefinitions : ∀ d ∈ before ++ alternative :: rest,
      d.Throughout host (Definition.Repeatable host)) :
    Fails (checkWithin host depth) value session before inner ∧
      findings (checkWithin host depth) value session alternative = result r ∧
      (final r).context = session.context ∧
      (Invariant.untouched session.world.heap).holds .still (final r).world.heap := by
  have hself : (Invariant.untouched session.world.heap).holds .still session.world.heap :=
    Invariant.holds_untouched_self
  have hbefore : ∀ d ∈ before, d.Throughout host (Definition.Repeatable host) :=
    fun d hd => hdefinitions d (List.mem_append_left _ hd)
  have halternative := hdefinitions alternative
    (List.mem_append_right _ (List.mem_cons_self ..))
  have hmiddle := hfailed.untouched (fun d hd => (hbefore d hd).imp fun _ h => h.local) hself
  refine ⟨hfailed.fails hsound rfl hself hbefore, ?_,
    (context_tryAlternative htry).trans hfailed.context_eq,
    untouched_tryAlternative htry (halternative.imp fun _ h => h.local) hmiddle⟩
  rw [← htry, result_tryAlternative hsound hfailed.context_eq hmiddle halternative]

/-- **Alternatives are settled by what they find on the value itself.** -/
theorem settles_alternatives (hsound : session.Sound value) (depth : Nat)
    {definitions : List Definition}
    (hdefinitions : ∀ d ∈ definitions, d.Throughout host (Definition.Repeatable host)) :
    Settles (checkWithin host depth) value session definitions
      (alternatives (checkWithin host depth) value [] definitions session) := by
  have hself : (Invariant.untouched session.world.heap).holds .still session.world.heap :=
    Invariant.holds_untouched_self
  have hlocal : ∀ d ∈ definitions, d.Throughout host (Definition.Local host) :=
    fun d hd => (hdefinitions d hd).imp fun _ h => h.local
  rcases @alternatives_cases σ (checkWithin host depth) value [] definitions session with
    ⟨inner, after, hfailed, hend⟩ | ⟨fault, after, hfault, hend⟩ |
      ⟨alternative, after, hclean, hend⟩
  · have hfails := hfailed.fails hsound rfl hself hdefinitions
    have hcontext := hfailed.context_eq
    have hafter := hfailed.untouched hlocal hself
    obtain ⟨context', world⟩ := after
    obtain rfl : context' = session.context := hcontext
    rw [hend, report_return, List.nil_append]
    split
    · next hasserting => exact .stopped hfails hasserting hafter
    · next hasserting => exact .failed hfails (Bool.eq_false_iff.2 hasserting) hafter
  · obtain ⟨before, alternative, rest, inner, middle, rfl, hfailed, htry⟩ := hfault
    obtain ⟨hfails, hfindings, hcontext, hafter⟩ := hfailed.next htry hsound hdefinitions
    rw [hend]
    exact .faulty hfails hfindings hcontext hafter
  · -- The second run begins where the trial has left the heap, with copies added to it.
    obtain ⟨before, rest, inner, middle, rfl, hfailed, htry⟩ := hclean
    obtain ⟨hfails, hfindings, hcontext, hafter⟩ := hfailed.next htry hsound hdefinitions
    have hmiddle := hfailed.untouched (fun d hd => hlocal d (List.mem_append_left _ hd)) hself
    obtain ⟨value', last, hrerun, hlast⟩ := ok_of_clean hsound hfailed.context_eq hmiddle
      (hdefinitions alternative (List.mem_append_right _ (List.mem_cons_self ..))) htry
    rw [hend, hrerun]
    exact .clean hfails hfindings hcontext hafter hrerun hlast

end Sound

/-- **Trials foretell.**  In a run whose defaults and transforms keep to the heap every
session is sound.  In a sound session the trial of a repeatable alternative comes to what
the alternative finds on the value itself, and leaves the copy as the value would be; and
`either` is settled by what the alternatives find on the value itself. -/
theorem either_foretold (host : Host σ) :
    (∀ (options : Options) (value : Value) (definition : Definition) (world : World σ),
      definition.Throughout host (Invariant.inHeap.Keeps host) → world.heap.Closed →
      world.heap.Holds value → ∀ (depth : Nat) (refusal : ValidationError),
        checkGuarded host (fun value _ session => session.Sound value) refusal depth value
            definition ⟨.start options, world⟩ =
          checkWithin host depth value definition ⟨.start options, world⟩) ∧
    ∀ (depth : Nat) (value : Value) (session : Session σ), session.Sound value →
      (∀ alternative, alternative.Throughout host (Definition.Repeatable host) →
        result (tryAlternative (checkWithin host depth) value alternative session) =
            findings (checkWithin host depth) value session alternative ∧
          Mirrors (value.copyWithOrigins session.world.heap).1.1 value
            (checkWithin host depth (value.copyWithOrigins session.world.heap).1.1 alternative
              ⟨session.context.fork (value.copyWithOrigins session.world.heap).1.2,
                ⟨(value.copyWithOrigins session.world.heap).2, session.world.env⟩⟩)
            (checkWithin host depth value alternative
              ⟨session.context.fork [], session.world⟩)) ∧
        ∀ (resolved : Resolved) (definitions : List Definition),
          resolved.node.either = some definitions →
          (∀ d ∈ definitions, d.Throughout host (Definition.Repeatable host)) →
          Settles (checkWithin host depth) value session definitions
            (either (checkWithin host depth) resolved value session) := by
  constructor
  · intro options value definition world hdefinition hclosed hvalue depth refusal
    have hfits : (Discipline.inHeap host).fits depth Invariant.inHeap world.heap.size
        (.start options) := ⟨rfl, nofun, nofun⟩
    have hkept := (Discipline.inHeap host).follows refusal depth 0 (fun _ => rfl) hfits
      (fun _ href => hvalue _ (.root href)) hdefinition
    obtain ⟨hsame, -⟩ := Invariant.eq_of_follows hkept
      (fun _ _ _ h => (Invariant.alike_iff.1 h).1) ⟨rfl, hclosed⟩
    rw [Nat.zero_add] at hsame
    exact hsame
  · intro depth value session hsound
    refine ⟨fun alternative halternative => ⟨?_, ?_⟩, fun resolved definitions heither hgood => ?_⟩
    · exact result_tryAlternative hsound rfl Invariant.holds_untouched_self halternative depth
    · exact mirrors_copy hsound rfl Invariant.holds_untouched_self halternative depth
    · have hsettles := settles_alternatives hsound depth hgood
      simp only [either, heither]
      exact hsettles

/-- Two arrays that contain each other, of which one is being checked already: an array of
numbers is not found there, and so the alternative after it is taken. -/
theorem either_foretold_cyclic :
    let numbers : Definition := .node { items := some (.shorthand .number) }
    let keywords : Node Definition := { either := some [numbers, .shorthand .array] }
    let recurse : Recurse Unit := checkWithin default 3
    let world : World Unit := ⟨{ containers := #[.array [.array 1], .array [.array 0]] }, ()⟩
    let session : Session Unit :=
      ⟨{ Context.start {} with path := [.index 0], ancestors := [0], visits := [1, 0] }, world⟩
    checkGuarded default (fun value _ session => session.Sound value) .exhausted 3 (.array 1)
        (.node keywords) ⟨.start {}, world⟩ =
      recurse (.array 1) (.node keywords) ⟨.start {}, world⟩ ∧
    result (tryAlternative recurse (.array 1) numbers session) =
      findings recurse (.array 1) session numbers ∧
    Settles recurse (.array 1) session [numbers, .shorthand .array]
      (either recurse ⟨keywords, true, false⟩ (.array 1) session) := by
  intro numbers keywords recurse world session
  have hclosed : world.heap.Closed := by
    rintro parent child ⟨part, hpart, href⟩
    match parent with
    | 0 =>
      obtain rfl : part = .array 1 := List.mem_singleton.1 hpart
      cases href
      exact (by decide : (1 : Nat) < 2)
    | 1 =>
      obtain rfl : part = .array 0 := List.mem_singleton.1 hpart
      cases href
      exact (by decide : (0 : Nat) < 2)
    | other + 2 => cases hpart
  have hholds : world.heap.Holds (.array 1) := by
    refine hclosed.holds ?_
    rintro _ ⟨⟩
    exact (by decide : (1 : Nat) < 2)
  have hnumbers : numbers.Written := by
    refine Definition.written_node_iff.2 ⟨rfl, nofun, nofun, nofun, ?_, nofun⟩
    rintro _ ⟨⟩
    exact .shorthand .number
  have hwritten : ∀ d ∈ [numbers, .shorthand .array], d.Written := by
    intro d hd
    rcases List.mem_cons.1 hd with rfl | hd
    · exact hnumbers
    · obtain rfl := List.mem_singleton.1 hd
      exact .shorthand .array
  have hkeywords : (Definition.node keywords).Written := by
    refine Definition.written_node_iff.2 ⟨rfl, nofun, nofun, nofun, nofun, ?_⟩
    rintro _ ⟨⟩
    exact hwritten
  have hsound : session.Sound (.array 1) := by
    refine ⟨hholds, fun ref href => ?_, nofun⟩
    obtain rfl := List.mem_singleton.1 href
    exact (by decide : (0 : Nat) < 2)
  obtain ⟨hrun, htrial⟩ := either_foretold (default : Host Unit)
  obtain ⟨halternative, heither⟩ := htrial 3 (.array 1) session hsound
  refine ⟨?_, (halternative numbers (hnumbers.throughout _)).1, ?_⟩
  · exact hrun {} (.array 1) _ world ((hkeywords.throughout _).imp fun _ h => h.keeps_inHeap)
      hclosed hholds 3 .exhausted
  · exact heither _ _ rfl fun d hd => (hwritten d hd).throughout _

end Check

end Conform
