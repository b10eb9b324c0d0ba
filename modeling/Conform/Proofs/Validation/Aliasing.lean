import Conform.Proofs.Validation.Fillings
import Conform.Proofs.Value.Branching

/-!
# No aliasing

A value is a tree when no container in it is reached by two paths.  A check makes a tree of a
tree: what it puts into a container has come of what was there, or is a document that it has
made for this one place, and the trial of an alternative works on a copy of which nothing stays.

So the containers of the value that comes of a check were in the value before, or were made for
a document; and no two documents of a check have a container in common, wherever in the value
they were filled in, and also if one was filled in while an alternative was tried and the other
when it was taken.

## Main definitions

* `Course.branching`: the course of a check at a tree.
* `Check.TakesAfresh`: an alternative is taken without anything that was made to try it.

## Main results

* `check_tree`: what comes of a tree is a tree, with containers of the value and of documents,
  each made once.
-/

namespace Conform

variable {σ : Type}

/-- The course of a check at a tree.  Where the documents that would make barred containers are
spared, nothing leads to one. -/
def Course.branching (σ : Type) (barred : Ref → Prop) : Course σ where
  good := fun _ => True
  spared := fun filling => ∃ ref, barred ref ∧ filling.Creates ref
  stands := fun _ heap value => heap.Holds value ∧ heap.Tree value
  goes := fun _ heap value heap' result =>
    heap.Sprouts value heap' result ∧ heap.Withholds barred heap' result
  plain := fun _ _ _ => trivial
  none := fun _ _ _ => trivial
  cycle := fun _ _ _ _ => trivial
  refl := fun hstands => ⟨.refl _ _, .same hstands.1⟩
  scalar := fun hnone => ⟨.scalar _ _ hnone, .scalar hnone⟩
  trans := fun _ h h' => ⟨h.1.trans h'.1, h.2.trans h.1 h'.2 h'.1⟩
  stays := fun hstands h => ⟨h.1.holds hstands.1, h.1.tree hstands.1 hstands.2⟩
  visited := id
  leave := id
  fill := fun hstands hspared => ⟨.ofJson _ _ _, .of_not_barred (.ofJson _ _ _) hstands.1
    fun ref hle hlt hbarred => hspared ⟨ref, hbarred, hle, hlt⟩⟩
  entered := fun hstands href _ h accessor =>
    ⟨h.1.branches.gains.holds (hstands.1.get accessor),
      h.1.branches.tree (hstands.1.get accessor) (hstands.2.get href accessor)⟩
  skip := fun hstands _ h h' =>
    ⟨h.1.skip hstands.1 h'.1, .skip hstands.1 h.1 h.2 h'.1 h'.2⟩
  put := fun hstands href h h' =>
    ⟨h.1.put hstands.1 h'.1 href, .put hstands.1 h.1 h.2 h'.1 h'.2⟩
  fork := fun hstands => ⟨Heap.holds_copyWithOrigins _ _, hstands.2.copy⟩
  back := fun hstands h =>
    have hback := Heap.Sprouts.back hstands.1 hstands.2 h.1
    ⟨hback.1, .of_extends hstands.1 hback.2⟩

namespace Check

/-- What an alternative makes of a value after it has been tried on a copy: what it leads to was
there before the trial or has been made after it. -/
def TakesAfresh (recurse : Recurse σ) (value : Value) (alternative : Definition)
    (session : Session σ) : Prop :=
  ∀ violations tried result taken,
    tryAlternative recurse value alternative session = .ok violations tried →
    recurse value alternative tried = .ok result taken →
    ∀ ref, taken.world.heap.Reachable result ref →
      session.world.heap.Reachable value ref ∨ tried.world.heap.size ≤ ref

/-- **Nothing that was made to try an alternative is left when it is taken.** -/
theorem takesAfresh (host : Host σ) (depth : Nat) {value : Value} {alternative : Definition}
    {session : Session σ} (halternative : alternative.Throughout host Definition.Unaided)
    (hholds : session.world.heap.Holds value) (htree : session.world.heap.Tree value) :
    TakesAfresh (checkWithin host depth) value alternative session := by
  have hkeeps := (Course.branching σ fun _ => False).keeps_checkWithin host
    (fun _ ⟨_, hbarred, _⟩ => hbarred) depth
  intro violations tried result taken htry htake ref hreach
  have hcopy := hkeeps (session.context.fork (value.copyWithOrigins session.world.heap).1.2)
    _ _ alternative halternative ⟨Heap.holds_copyWithOrigins _ _, htree.copy⟩
  have htrial := Arrives.tryAlternative (fun heap' =>
    session.world.heap.Sprouts value heap' value ∧ session.world.heap.Extends heap')
      (hcopy.imp fun _ _ h => Heap.Sprouts.back hholds htree h.1)
  obtain ⟨⟨hsprouts, hextends⟩, -⟩ := htrial.of_ok htry
  obtain ⟨htaken, -⟩ := (hkeeps tried.context tried.world.heap value alternative halternative
    ⟨hsprouts.holds hholds, hsprouts.tree hholds htree⟩).of_ok htake
  rcases htaken.reachable hreach with hold | ⟨hnew, -⟩
  · -- The trial has left alone what the value led to.
    exact .inl (hold.of_fetch_eq fun other hother =>
      hextends.fetch_eq other (hholds other hother))
  · exact .inr hnew

end Check

/-- **A check makes a tree of a tree.**  Every container of what comes of it was in the value, or
was made for a document, and for one alone: no two documents that the check fills in have a
container in common.  Nor does an alternative, whenever it is taken, share a container with what
was made to try it.  The definitions may have no default and no transform of the program around
the library. -/
theorem check_tree (host : Host σ) (options : Options) (value : Value) (definition : Definition)
    (world : World σ) (hdefinition : definition.Throughout host Definition.Unaided)
    (hholds : world.heap.Holds value) (htree : world.heap.Tree value) {outcome : Outcome}
    (houtcome : (check host options value definition world).1 = .ok outcome) :
    (check host options value definition world).2.heap.Tree outcome.value ∧
    (∀ ref, (check host options value definition world).2.heap.Reachable outcome.value ref →
      world.heap.Reachable value ref ∨
        ∃! filling : Filling σ, filling.MadeBy host options value definition world ∧
          filling.Creates ref) ∧
    (∀ f g : Filling σ, f.MadeBy host options value definition world →
      g.MadeBy host options value definition world →
      ∀ ref, f.Creates ref → g.Creates ref → f = g) ∧
    ∀ (depth : Nat) (part : Value) (alternative : Definition) (session : Session σ),
      alternative.Throughout host Definition.Unaided → session.world.heap.Holds part →
      session.world.heap.Tree part →
      Check.TakesAfresh (checkWithin host depth) part alternative session := by
  obtain ⟨fillings, hmade, hunique, hsame⟩ := exists_fillings hdefinition houtcome
  have hgoes : ∀ barred : Ref → Prop,
      (∀ filling ∈ fillings, ¬ ∃ ref, barred ref ∧ filling.Creates ref) →
      world.heap.Sprouts value (check host options value definition world).2.heap outcome.value ∧
        world.heap.Withholds barred (check host options value definition world).2.heap
          outcome.value := fun barred hspared =>
    ((Course.branching σ barred).check_goes hdefinition ⟨hholds, htree⟩
      (hsame _ .exhausted hspared) houtcome).1
  obtain ⟨hsprouts, -⟩ := hgoes (fun _ => False) fun _ _ ⟨_, hbarred, _⟩ => hbarred
  have hapart : ∀ f g : Filling σ, f.MadeBy host options value definition world →
      g.MadeBy host options value definition world →
      ∀ ref, f.Creates ref → g.Creates ref → f = g := fun f g hf hg ref =>
    hunique f ((hmade f).1 hf) g ((hmade g).1 hg) ref
  refine ⟨hsprouts.tree hholds htree, fun ref hreach => ?_, hapart,
    fun depth part alternative session halternative => Check.takesAfresh host depth halternative⟩
  refine (hsprouts.reachable hreach).imp_right fun hnew => ?_
  -- Were all its documents spared, nothing would lead to the container.
  obtain ⟨filling, hmem, hcreates⟩ : ∃ filling ∈ fillings, filling.Creates ref := by
    by_contra hnone
    obtain ⟨-, hwithheld⟩ := hgoes (· = ref) fun filling hmem ⟨_, heq, hcreates⟩ =>
      hnone ⟨filling, hmem, heq ▸ hcreates⟩
    exact (hwithheld ref rfl hnew.1).2 hreach
  have hfilling := (hmade filling).2 hmem
  exact ⟨filling, ⟨hfilling, hcreates⟩, fun other hother =>
    hapart other filling hother.1 hfilling ref hother.2 hcreates⟩

/-- Two fields and two items with one default, in an object that is tried on a copy before it is
taken.  Ten containers come of it, and of these nine have been made for documents. -/
theorem check_tree_defaults :
    let listed : Definition := .node { fallback := some (.literal (.array [.array []])) }
    let list : Definition := .node
      { fallback := some (.literal (.array [.null, .null])), items := some listed }
    let fields : Definition := .node
      { schema := some (.declared [("first", listed), ("second", listed), ("list", list)]) }
    let definition : Definition := .node { either := some [.shorthand .string, fields] }
    let world : World Unit := ⟨{ containers := #[.object (.ofList [("id", .bool true)])] }, ()⟩
    let run := check default {} (.object 0) definition world
    ∃ outcome, run.1 = .ok outcome ∧ (run.2.heap.reach outcome.value).length = 10 ∧
      run.2.heap.Tree outcome.value ∧
      ∀ ref, run.2.heap.Reachable outcome.value ref → world.heap.Reachable (.object 0) ref ∨
        ∃! filling : Filling Unit,
          filling.MadeBy default {} (.object 0) definition world ∧ filling.Creates ref := by
  intro listed list fields definition world
  have hlisted : listed.Written := .node rfl nofun nofun nofun nofun nofun
  have hlist : list.Written := by
    refine .node rfl nofun nofun nofun ?_ nofun
    rintro _ ⟨⟩
    exact hlisted
  have hfields : fields.Written := by
    refine .node rfl nofun nofun ?_ nofun nofun
    rintro _ ⟨⟩
    exact List.forall_mem_cons.2 ⟨hlisted, List.forall_mem_cons.2
      ⟨hlisted, List.forall_mem_singleton.2 hlist⟩⟩
  have hwritten : definition.Written := by
    refine .node rfl nofun nofun nofun nofun ?_
    rintro _ ⟨⟩
    exact List.forall_mem_cons.2 ⟨.shorthand .string, List.forall_mem_singleton.2 hfields⟩
  have hunaided := (hwritten.throughout (default : Host Unit)).imp fun _ h => h.unaided
  have hopens : world.heap.Opens (.object 0) 0 (.object (.ofList [("id", .bool true)])) :=
    .object rfl
  have hflat : ∀ part ∈ (Container.object (.ofList [("id", .bool true)])).children,
      part.ref? = none := by decide
  have htree := Heap.tree_of_flat hopens hflat
  have hholds := Heap.holds_of_flat hopens hflat (by decide)
  have hlength : (check default {} (.object 0) definition world).1.toOption.map (fun outcome =>
      ((check default {} (.object 0) definition world).2.heap.reach outcome.value).length) =
        some 10 := by decide +kernel
  have hcheck := @check_tree Unit default {} (.object 0) definition world hunaided hholds htree
  -- From here on it does not matter how the check has come to what it comes to.
  revert hlength hcheck
  generalize check default {} (.object 0) definition world = checked
  intro hlength hcheck run
  rcases checked with ⟨_ | outcome, after⟩
  · cases hlength
  · obtain ⟨hresult, hmade, -, -⟩ := @hcheck outcome rfl
    exact ⟨outcome, rfl, Option.some.inj hlength, hresult, hmade⟩

end Conform
