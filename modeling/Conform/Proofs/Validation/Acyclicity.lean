import Conform.Proofs.Validation.Course
import Conform.Proofs.Validation.Origin

/-!
# No false alarms

A check that comes upon a container which the way has come through complains of a cycle.  In a
value that does not contain itself this never happens, though one container may be entered many
times: from several places, by several keywords, on copies, and again when an alternative is
taken.  Each of these entries has ended before the next begins, or is of another container: the
containers ahead have origins that are not on the way, and no two of them have the same.

And no cycle comes about.  What the check puts into the heap is new or was there, and new
containers lead to new ones alone; none of these is on a cycle, since documents hold what was
made before them and copies are made of values that do not contain themselves.

## Main definitions

* `Violation.Within`: violations at any depth of a violation.
* `Heap.GainsAcyclic`: a heap that gains no container on a cycle.
* `Context.Ahead`: a check at a value that does not contain itself.

## Main results

* `Context.Ahead.of_gains`: a check may go on in a heap that has gained such containers.
* `check_acyclic`: no cycle is reported of a value that does not contain itself, and the value
  that comes of it does not contain itself.
-/

namespace Conform

variable {σ : Type}

/-! ## Reports of cycles -/

/-- One violation is the other, or among what is wrong with its alternatives, at any depth. -/
inductive Violation.Within (part : Violation) : Violation → Prop where
  | self : Within part part
  | inner {whole next : Violation} {violations : List Violation} : violations ∈ whole.inner →
      next ∈ violations → Within part next → Within part whole

/-- The report that a value contains a cycle. -/
def Violation.ReportsCycle (violation : Violation) : Prop :=
  violation.message = violation.path ++ " " ++ Complaint.cycle.text

/-- No cycle is reported at any depth. -/
def Violation.Cycleless (whole : Violation) : Prop :=
  ∀ part : Violation, part.Within whole → ¬ part.ReportsCycle

theorem Complaint.text_ne_cycle {complaint : Complaint} (h : complaint ≠ .cycle) :
    complaint.text ≠ Complaint.cycle.text := by
  -- The other wordings begin with another letter.
  intro heq
  have hfirst := congrArg (·.toList.head?) heq
  rcases complaint with _ | type | allowed | ⟨comparator, bound⟩ | _ | _ | _ | _ | _ | reason
  case cycle => exact h rfl
  all_goals simp [text] at hfirst

/-- No other complaint reports a cycle, unless it keeps one. -/
theorem Violation.cycleless_ofComplaint {path : String} {complaint : Complaint}
    {inner : List (List Violation)} (h : complaint ≠ .cycle)
    (hinner : ∀ violations ∈ inner, ∀ violation ∈ violations, Cycleless violation) :
    Cycleless (ofComplaint path complaint inner) := by
  intro part hpart
  rcases hpart with _ | ⟨hviolations, hnext, hpart⟩
  · exact fun hreports =>
      Complaint.text_ne_cycle h ((String.append_right_inj (path ++ " ")).1 hreports)
  · exact hinner _ hviolations _ hnext part hpart

/-! ## Heaps -/

namespace Heap

variable {base heap later : Heap} {value part : Value} {ref : Ref}

/-- A heap gains containers, of which none is on a cycle. -/
structure GainsAcyclic (base heap : Heap) : Prop where
  gains : base.Gains heap
  acyclic : ∀ ref, base.size ≤ ref → ∀ part ∈ heap.children ref, ¬ heap.Reachable part ref

/-- **A cycle through what was there** was there. -/
theorem Gains.exists_cycle (h : base.Gains heap) (hlt : ref < base.size)
    (hpart : part ∈ heap.children ref) (hback : heap.Reachable part ref) :
    ∃ part ∈ base.children ref, base.Reachable part ref := by
  obtain ⟨root, hroot⟩ : ∃ root, part.ref? = some root :=
    Option.ne_none_iff_exists'.1 fun hnone => not_reachable_of_ref?_none hnone ref hback
  -- From what is new there is no way back.
  have hchild : base.Child ref root := by
    refine (h.child_cases ⟨part, hpart, hroot⟩).resolve_right fun hnew => ?_
    have hback := h.new_of_reachable (fun _ heq => Option.some.inj (hroot.symm.trans heq) ▸ hnew)
      hback
    exact Nat.not_lt.2 hback.1 hlt
  obtain ⟨part', hpart', hroot'⟩ := hchild
  exact ⟨part', hpart', (h.reachable_of_lt hback hlt).of_ref?_eq (hroot.trans hroot'.symm)⟩

namespace GainsAcyclic

theorem refl (heap : Heap) : heap.GainsAcyclic heap := by
  refine ⟨.refl heap, fun ref hle part hpart => ?_⟩
  rw [children_of_size_le hle] at hpart
  cases hpart

theorem trans (h : base.GainsAcyclic heap) (h' : heap.GainsAcyclic later) :
    base.GainsAcyclic later := by
  refine ⟨h.gains.trans h'.gains, fun ref hle part hpart hback => ?_⟩
  by_cases hlt : ref < heap.size
  · obtain ⟨part, hpart, hback⟩ := h'.gains.exists_cycle hlt hpart hback
    exact h.acyclic ref hle part hpart hback
  · exact h'.acyclic ref (Nat.not_lt.1 hlt) part hpart hback

/-- To put something into a container that was there makes no cycle of what is new. -/
theorem put (h : base.GainsAcyclic heap) {accessor : Accessor} (hlt : ref < base.size)
    (hvalue : ∀ child, value.ref? = some child →
      base.Place ref accessor child ∨ base.size ≤ child ∧ child < heap.size) :
    base.GainsAcyclic (heap.put ref accessor value) := by
  refine ⟨h.gains.put hvalue, fun new hle part hpart hback => ?_⟩
  have hsame : ∀ other, base.size ≤ other →
      (heap.put ref accessor value).fetch other = heap.fetch other :=
    fun other hother => fetch_put_of_ne (Nat.ne_of_lt (Nat.lt_of_lt_of_le hlt hother))
  rw [children, hsame new hle] at hpart
  have hnew : ∀ root, part.ref? = some root → base.size ≤ root ∧ root < heap.size :=
    fun root hroot => h.gains.new_of_child hle ⟨part, hpart, hroot⟩
  refine h.acyclic new hle part hpart (hback.of_fetch_eq fun other hother => ?_)
  exact hsame other (h.gains.new_of_reachable hnew hother).1

/-- A copy of a value that does not contain itself. -/
theorem copy (h : heap.Acyclic value) : heap.GainsAcyclic (value.copyWithOrigins heap).2 := by
  refine ⟨.copy heap value, fun new hle part hpart hback => ?_⟩
  have hlt := lt_size_of_mem_children hpart
  rw [Value.size_copyWithOrigins] at hlt
  obtain ⟨original, hcopied⟩ := Ref.Copied.exists_of_lt hle hlt
  -- A cycle in the copy would be one in the original.
  obtain ⟨accessor, haccessor⟩ := Container.mem_children_iff.1 hpart
  obtain ⟨source, hsource, hroots⟩ := part?_copyWithOrigins hcopied haccessor
  obtain ⟨path, hpath⟩ := exists_path_of_reachable hback
  obtain ⟨other, hcopied', hpath'⟩ := path_copyWithOrigins hpath hroots
  obtain rfl := (Ref.Copied.biUnique (heap.nodup_reach value)).1 hcopied hcopied'
  exact h original (mem_reach_iff.1 hcopied.mem) source
    (Container.mem_children_iff.2 ⟨accessor, hsource⟩) hpath'.reachable

/-- The containers of a document hold those that were made before. -/
theorem ofJson (json : Json) (heap : Heap) : heap.GainsAcyclic (Value.ofJson json heap).2 := by
  refine ⟨.ofJson json heap, fun new hle part hpart hback => ?_⟩
  have hsown := sown_ofJson json heap
  have hbelow : ∀ parent child, heap.size ≤ parent →
      (Value.ofJson json heap).2.Child parent child → heap.size ≤ child ∧ child < parent := by
    intro parent child hparent hchild
    obtain ⟨accessor, hplace⟩ := child_iff_place.1 hchild
    exact hsown.place hparent hplace
  have hless : ∀ {ref}, (Value.ofJson json heap).2.Reachable part ref →
      heap.size ≤ ref ∧ ref < new := by
    intro ref hreach
    induction hreach with
    | root hroot => exact hbelow new _ hle ⟨part, hpart, hroot⟩
    | child _ hchild ih =>
      obtain ⟨hle', hlt⟩ := hbelow _ _ ih.1 hchild
      exact ⟨hle', Nat.lt_trans hlt ih.2⟩
  exact Nat.lt_irrefl new (hless hback).2

end GainsAcyclic

end Heap

/-! ## Where a check stands -/

/-- A check stands at a value that does not contain itself.  No container ahead has its origin on
the way, and no two have the same. -/
structure Context.Ahead (context : Context) (heap : Heap) (value : Value) : Prop where
  holds : heap.Holds value
  acyclic : heap.Acyclic value
  copies : ∀ origin ∈ context.origins, origin.1 < heap.size
  behind : ∀ ref ∈ context.ancestors, ref < heap.size
  known : ∀ ref, heap.Reachable value ref → context.originOf ref < heap.size
  fresh : ∀ ref, heap.Reachable value ref → context.originOf ref ∉ context.ancestors
  distinct : ∀ r s, heap.Reachable value r → heap.Reachable value s →
    context.originOf r = context.originOf s → r = s

namespace Context.Ahead

variable {context : Context} {base heap later : Heap} {value result : Value} {ref : Ref}

theorem start (options : Options) (hholds : heap.Holds value) (hacyclic : heap.Acyclic value) :
    (Context.start options).Ahead heap value where
  holds := hholds
  acyclic := hacyclic
  copies := nofun
  behind := nofun
  known := hholds
  fresh := nofun
  distinct := fun _ _ _ _ => id

theorem scalar (h : context.Ahead heap value) (hnone : result.ref? = none) :
    context.Ahead heap result where
  holds := fun ref hreach => absurd hreach (Heap.not_reachable_of_ref?_none hnone ref)
  acyclic := fun ref hreach => absurd hreach (Heap.not_reachable_of_ref?_none hnone ref)
  copies := h.copies
  behind := h.behind
  known := fun ref hreach => absurd hreach (Heap.not_reachable_of_ref?_none hnone ref)
  fresh := fun ref hreach => absurd hreach (Heap.not_reachable_of_ref?_none hnone ref)
  distinct := fun r _ hreach => absurd hreach (Heap.not_reachable_of_ref?_none hnone r)

/-- What is new is its own origin. -/
theorem originOf_new (h : context.Ahead base value) (hnew : base.size ≤ ref) :
    context.originOf ref = ref := by
  refine context.originOf_of_not_mem fun origin horigin heq => ?_
  rw [← heq] at hnew
  exact Nat.not_lt.2 hnew (h.copies origin horigin)

/-- **A check may go on** where the heap has gained containers, at what has come of the value or
a part of it. -/
theorem of_gains (h : context.Ahead base value) (hgains : base.GainsAcyclic heap)
    (hreach : ∀ ref, heap.Reachable result ref →
      base.Reachable value ref ∨ base.size ≤ ref ∧ ref < heap.size) :
    context.Ahead heap result where
  holds := by
    intro ref hresult
    rcases hreach ref hresult with hold | ⟨-, hlt⟩
    · exact Nat.lt_of_lt_of_le (h.holds ref hold) hgains.gains.size_le
    · exact hlt
  acyclic := by
    intro ref hresult part hpart hback
    rcases hreach ref hresult with hold | ⟨hnew, -⟩
    · obtain ⟨part, hpart, hback⟩ := hgains.gains.exists_cycle (h.holds ref hold) hpart hback
      exact h.acyclic ref hold part hpart hback
    · exact hgains.acyclic ref hnew part hpart hback
  copies := fun origin horigin =>
    Nat.lt_of_lt_of_le (h.copies origin horigin) hgains.gains.size_le
  behind := fun ref hmem => Nat.lt_of_lt_of_le (h.behind ref hmem) hgains.gains.size_le
  known := by
    intro ref hresult
    rcases hreach ref hresult with hold | ⟨hnew, hlt⟩
    · exact Nat.lt_of_lt_of_le (h.known ref hold) hgains.gains.size_le
    · rwa [h.originOf_new hnew]
  fresh := by
    intro ref hresult hmem
    rcases hreach ref hresult with hold | ⟨hnew, -⟩
    · exact h.fresh ref hold hmem
    · rw [h.originOf_new hnew] at hmem
      exact Nat.not_lt.2 hnew (h.behind ref hmem)
  distinct := by
    intro r s hr hs heq
    rcases hreach r hr with hr | ⟨hr, -⟩ <;> rcases hreach s hs with hs | ⟨hs, -⟩
    · exact h.distinct r s hr hs heq
    · rw [h.originOf_new hs] at heq
      exact absurd (h.known r hr) (Nat.not_lt.2 (heq ▸ hs))
    · rw [h.originOf_new hr] at heq
      exact absurd (h.known s hs) (Nat.not_lt.2 (heq ▸ hr))
    · rwa [h.originOf_new hr, h.originOf_new hs] at heq

/-- **One step on**, at a part as it was when the check came to the value. -/
theorem entered (h : context.Ahead base value) (href : value.ref? = some ref)
    (hgains : base.GainsAcyclic heap) (accessor : Accessor) :
    (context.entered ref accessor).Ahead heap (base.get value accessor) := by
  cases hstep : base.step? value accessor with
  | none =>
    have hnull : (base.get value accessor).ref? = none := by
      rw [Heap.get, hstep]
      rfl
    have hhere := (h.of_gains hgains fun _ => hgains.gains.reachable).scalar hnull
    refine { hhere with
      behind := fun other hmem => ?_
      fresh := fun other hreach => absurd hreach (Heap.not_reachable_of_ref?_none hnull other) }
    rcases List.mem_cons.1 hmem with rfl | hmem
    · exact Nat.lt_of_lt_of_le (h.known ref (.root href)) hgains.gains.size_le
    · exact hhere.behind other hmem
  | some part =>
    rw [Heap.get, hstep, Option.getD_some]
    have hpart : ∀ {other}, base.Reachable part other → base.Reachable value other :=
      fun hreach => hreach.of_step? hstep
    have hhere : context.Ahead heap part := h.of_gains hgains fun other hreach =>
      (hgains.gains.reachable hreach).imp_left hpart
    refine { hhere with behind := fun other hmem => ?_, fresh := fun other hreach hmem => ?_ }
    · rcases List.mem_cons.1 hmem with rfl | hmem
      · exact Nat.lt_of_lt_of_le (h.known ref (.root href)) hgains.gains.size_le
      · exact hhere.behind other hmem
    · -- The part does not lead back to the container that it is a part of.
      rcases List.mem_cons.1 hmem with heq | hmem
      · change context.originOf other = context.originOf ref at heq
        rcases hgains.gains.reachable hreach with hold | ⟨hnew, -⟩
        · obtain rfl := h.distinct other ref (hpart hold) (.root href) heq
          exact (h.acyclic.part hstep).2 other href hold
        · rw [h.originOf_new hnew] at heq
          exact Nat.not_lt.2 (heq ▸ hnew) (h.known ref (.root href))
      · exact hhere.fresh other hreach hmem

/-- **A trial stands at the copy** as the check stands at the value. -/
theorem fork (h : context.Ahead heap value) :
    (context.fork (value.copyWithOrigins heap).1.2).Ahead (value.copyWithOrigins heap).2
      (value.copyWithOrigins heap).1.1 where
  holds := Heap.holds_copyWithOrigins value heap
  acyclic := by
    intro copy hreach
    obtain ⟨original, hcopied, -⟩ := Heap.reachable_copyWithOrigins hreach
    exact (Heap.GainsAcyclic.copy h.acyclic).acyclic copy hcopied.le
  copies := fun origin => lt_of_mem_origins_fork h.copies
  behind := fun ref hmem =>
    Nat.lt_of_lt_of_le (h.behind ref hmem) (Heap.Gains.copy heap value).size_le
  known := by
    intro copy hreach
    obtain ⟨original, hcopied, horiginal⟩ := Heap.reachable_copyWithOrigins hreach
    rw [originOf_fork_of_copied h.copies hcopied]
    exact Nat.lt_of_lt_of_le (h.known original horiginal) (Heap.Gains.copy heap value).size_le
  fresh := by
    intro copy hreach
    obtain ⟨original, hcopied, horiginal⟩ := Heap.reachable_copyWithOrigins hreach
    rw [originOf_fork_of_copied h.copies hcopied]
    exact h.fresh original horiginal
  distinct := by
    intro r s hr hs heq
    obtain ⟨original, hr, horiginal⟩ := Heap.reachable_copyWithOrigins hr
    obtain ⟨original', hs, horiginal'⟩ := Heap.reachable_copyWithOrigins hs
    rw [originOf_fork_of_copied h.copies hr, originOf_fork_of_copied h.copies hs] at heq
    obtain rfl := h.distinct original original' horiginal horiginal' heq
    exact (Ref.Copied.biUnique (heap.nodup_reach value)).2 hr hs

end Context.Ahead

/-! ## The course -/

/-- The course of a check at a value that does not contain itself: no cycle is reported, and none
comes about. -/
def Course.acyclic (σ : Type) : Course σ where
  good := Violation.Cycleless
  spared := fun _ => False
  stands := Context.Ahead
  goes := fun _ heap value heap' result => heap.GainsAcyclic heap' ∧ heap.Renews heap' value result
  plain := fun _ _ h => Violation.cycleless_ofComplaint h nofun
  none := fun _ _ h => Violation.cycleless_ofComplaint nofun h
  cycle := fun hahead href hmem => absurd hmem (hahead.fresh _ (.root href))
  refl := fun _ => ⟨.refl _, .same⟩
  scalar := fun hnone => ⟨.refl _, .scalar hnone⟩
  trans := fun _ h h' =>
    ⟨h.1.trans h'.1, h.2.trans h'.2 h.1.gains.size_le h'.1.gains.size_le⟩
  stays := fun hahead h => hahead.of_gains h.1 fun _ => h.2.reachable h.1.gains
  visited := fun hahead => { hahead with }
  leave := id
  fill := fun _ _ => ⟨.ofJson _ _, .ofJson _ _ _⟩
  entered := fun hahead href _ h accessor => hahead.entered href h.1 accessor
  skip := fun _ _ h h' => ⟨h.1.trans h'.1, .same⟩
  put := fun hahead href h h' =>
    ⟨(h.1.trans h'.1).put (hahead.holds _ (.root href)) fun _ hchild =>
      (h'.2.place_or_new href hchild).imp_right fun hnew =>
        ⟨Nat.le_trans h.1.gains.size_le hnew.1, hnew.2⟩, .same⟩
  fork := Context.Ahead.fork
  back := fun hahead h => ⟨(Heap.GainsAcyclic.copy hahead.acyclic).trans h.1, .same⟩

/-- **The guard against cycles raises no false alarm.**  When a check of a value that does not
contain itself is completed, no violation reports a cycle, at whatever depth, and the value that
the check has made of it does not contain itself.  The definitions may have no default and no
transform of the program around the library. -/
theorem check_acyclic (host : Host σ) (options : Options) (value : Value)
    (definition : Definition) (world : World σ)
    (hdefinition : definition.Throughout host Definition.Unaided)
    (hholds : world.heap.Holds value) (hacyclic : world.heap.Acyclic value) {outcome : Outcome}
    (houtcome : (check host options value definition world).1 = .ok outcome) :
    (∀ violation ∈ outcome.violations, ∀ part : Violation, part.Within violation →
      part.message ≠ part.path ++ " " ++ Complaint.cycle.text) ∧
    (check host options value definition world).2.heap.Acyclic outcome.value := by
  have hahead := Context.Ahead.start options hholds hacyclic
  obtain ⟨hgoes, hgood⟩ := (Course.acyclic σ).check_goes hdefinition hahead
    (congrFun (checkSparing_nothing host .exhausted _ value definition) _) houtcome
  exact ⟨hgood, ((Course.acyclic σ).stays hahead hgoes).acyclic⟩

/-- An array that holds another twice, and a boolean beside them.  Each part is an array or a text,
and the inner array is entered on a copy and again as it is, both times that it is met. -/
theorem check_acyclic_shared :
    let strings : Definition := .node { items := some (.shorthand .string) }
    let item : Definition := .node
      { either := some [.shorthand .string, strings], items := some (.shorthand .string) }
    let definition : Definition := .node { items := some item }
    let world : World Unit :=
      ⟨{ containers := #[.array [.string "a"], .array [.array 0, .array 0, .bool true]] }, ()⟩
    let run := check default {} (.array 1) definition world
    ∃ outcome, run.1 = .ok outcome ∧ outcome.violations.length = 2 ∧
      (∀ violation ∈ outcome.violations, ∀ part : Violation, part.Within violation →
        part.message ≠ part.path ++ " " ++ Complaint.cycle.text) ∧
      run.2.heap.Acyclic outcome.value := by
  intro strings item definition world
  have hstring : ∀ item, some (Definition.shorthand .string) = some item → item.Written := by
    rintro _ ⟨⟩
    exact .shorthand .string
  have hstrings : strings.Written := .node rfl nofun nofun nofun hstring nofun
  have hitem : item.Written := by
    refine .node rfl nofun nofun nofun hstring ?_
    rintro _ ⟨⟩ alternative halternative
    rcases List.mem_cons.1 halternative with rfl | halternative
    · exact .shorthand .string
    · obtain rfl := List.mem_singleton.1 halternative
      exact hstrings
  have hwritten : definition.Written := by
    refine .node rfl nofun nofun nofun ?_ nofun
    rintro _ ⟨⟩
    exact hitem
  have hdown : ∀ parent child, world.heap.Child parent child → child < parent := by
    have hparts : ∀ parent < world.heap.size, ∀ part ∈ world.heap.children parent,
        ∀ child ∈ part.ref?, child < parent := by decide
    rintro parent child ⟨part, hpart, hchild⟩
    exact hparts parent (Heap.lt_size_of_mem_children hpart) part hpart child hchild
  have hholds : world.heap.Holds (.array 1) := fun ref hreach =>
    Nat.lt_succ_of_le (hreach.le hdown rfl)
  have hunaided := (hwritten.throughout (default : Host Unit)).imp fun _ h => h.unaided
  have hlength : (check default {} (.array 1) definition world).1.toOption.map
      (·.violations.length) = some 2 := by decide +kernel
  have hcheck := @check_acyclic Unit default {} (.array 1) definition world hunaided hholds
    (Heap.acyclic_of_child_lt hdown _)
  -- From here on it does not matter how the check has come to what it comes to.
  revert hlength hcheck
  generalize check default {} (.array 1) definition world = checked
  intro hlength hcheck run
  rcases checked with ⟨_ | outcome, after⟩
  · cases hlength
  · obtain ⟨hcycleless, hacyclic⟩ := @hcheck outcome rfl
    exact ⟨outcome, rfl, Option.some.inj hlength, hcycleless, hacyclic⟩

end Conform
