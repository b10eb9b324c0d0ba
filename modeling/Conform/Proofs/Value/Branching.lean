import Conform.Proofs.Value.Growth

/-!
# Values that stay trees

A value is a tree if and only if the container behind it stands at no place in the value, and
every other container at one.  So a value that was a tree stays one in a heap that gains
containers, as long as no new container comes to stand at two places; and so does what comes of
the value, if the container behind it is new and has come to stand at none.

## Main definitions

* `Heap.HeldOnce`: no container of a value stands at two places, and its own at none.
* `Heap.Taken`: a place that has come to hold a container.
* `Heap.Branches`: a heap that gains containers, each at one place at most.
* `Heap.Sprouts`: what comes of a value that is a tree, with the rest left alone.
* `Heap.Withholds`: new containers that neither old values nor what comes of the value lead to.

## Main results

* `Heap.tree_iff`: trees, told by the places of their containers.
* `Heap.Branches.tree`, `Heap.Sprouts.tree`: trees stay trees, and what comes of them is a tree.
* `Heap.Sprouts.trans`, `Heap.Sprouts.put`, `Heap.Sprouts.back`: steps in sequence, into a part
  and back, and on a copy.
-/

namespace Conform.Heap

variable {base heap later : Heap} {value part result : Value} {parent child ref : Ref}
  {accessor : Accessor}

/-! ## Trees -/

/-- A path to a place in a container goes to the container, and one step on. -/
theorem path_concat_iff {path : List Accessor} :
    heap.Path value (path ++ [accessor]) child ↔
      ∃ parent, heap.Path value path parent ∧ heap.Place parent accessor child := by
  induction path generalizing value with
  | nil =>
    constructor
    · rintro (_ | ⟨hparent, hpart, _ | _⟩)
      exact ⟨_, .here hparent, _, hpart, ‹_›⟩
    · rintro ⟨parent, _ | _, part, hpart, hchild⟩
      exact .step ‹_› hpart (.here hchild)
  | cons first rest ih =>
    constructor
    · rintro (_ | ⟨hroot, hpart, hrest⟩)
      obtain ⟨parent, hpath, hplace⟩ := ih.1 hrest
      exact ⟨parent, .step hroot hpart hpath, hplace⟩
    · rintro ⟨parent, _ | ⟨hroot, hpart, hrest⟩, hplace⟩
      exact .step hroot hpart (ih.2 ⟨parent, hrest, hplace⟩)

/-- A path leads to one container. -/
theorem Path.unique {path : List Accessor} {r s : Ref} (h : heap.Path value path r)
    (h' : heap.Path value path s) : r = s := by
  induction h with
  | here hr =>
    rcases h' with hs | _
    exact Option.some.inj (hr.symm.trans hs)
  | step hparent hpart _ ih =>
    rcases h' with _ | ⟨hparent', hpart', hrest'⟩
    obtain rfl := Option.some.inj (hparent.symm.trans hparent')
    obtain rfl := Option.some.inj (hpart.symm.trans hpart')
    exact ih hrest'

/-- In a value, the container behind it stands at no place, and no container at two. -/
structure HeldOnce (heap : Heap) (value : Value) : Prop where
  root : ∀ {root parent : Ref} {accessor : Accessor}, value.ref? = some root →
    heap.Reachable value parent → ¬ heap.Place parent accessor root
  place : ∀ {parent parent' : Ref} {accessor accessor' : Accessor} {child : Ref},
    heap.Reachable value parent → heap.Reachable value parent' →
    heap.Place parent accessor child → heap.Place parent' accessor' child →
    parent = parent' ∧ accessor = accessor'

/-- **Trees, told by the places of their containers.** -/
theorem tree_iff : heap.Tree value ↔ heap.HeldOnce value := by
  constructor
  · intro h
    constructor
    case root =>
      intro root parent accessor hroot hparent hplace
      obtain ⟨path, hpath⟩ := exists_path_of_reachable hparent
      have hnil := h root [] _ (.here hroot) (path_concat_iff.2 ⟨parent, hpath, hplace⟩)
      exact List.append_ne_nil_of_right_ne_nil path (List.cons_ne_nil accessor []) hnil.symm
    case place =>
      intro parent parent' accessor accessor' child hparent hparent' hplace hplace'
      obtain ⟨path, hpath⟩ := exists_path_of_reachable hparent
      obtain ⟨path', hpath'⟩ := exists_path_of_reachable hparent'
      have hpaths := h child _ _ (path_concat_iff.2 ⟨parent, hpath, hplace⟩)
        (path_concat_iff.2 ⟨parent', hpath', hplace'⟩)
      obtain ⟨rfl, hlast⟩ := List.append_inj' hpaths rfl
      exact ⟨hpath.unique hpath', List.head_eq_of_cons_eq hlast⟩
  · -- Two paths to one container have the last step in common, and so on back.
    intro h ref p
    induction p using List.reverseRecOn generalizing ref with
    | nil =>
      rintro q hp hq
      rcases hp with hroot | _
      rcases q.eq_nil_or_concat' with rfl | ⟨q, accessor, rfl⟩
      · rfl
      · obtain ⟨parent, hparent, hplace⟩ := path_concat_iff.1 hq
        exact absurd hplace (h.root hroot hparent.reachable)
    | append_singleton p accessor ih =>
      intro q hp hq
      obtain ⟨parent, hparent, hplace⟩ := path_concat_iff.1 hp
      rcases q.eq_nil_or_concat' with rfl | ⟨q, accessor', rfl⟩
      · rcases hq with hroot | _
        exact absurd hplace (h.root hroot hparent.reachable)
      · obtain ⟨parent', hparent', hplace'⟩ := path_concat_iff.1 hq
        obtain ⟨rfl, rfl⟩ := h.place hparent.reachable hparent'.reachable hplace hplace'
        rw [ih parent q hparent hparent']

/-- A copy of a tree is a tree. -/
theorem Tree.copy (h : heap.Tree value) :
    (value.copyWithOrigins heap).2.Tree (value.copyWithOrigins heap).1.1 := by
  intro copy p q hp hq
  obtain ⟨original, hcopied, hp⟩ := path_copyWithOrigins hp (value.root_copyWithOrigins heap)
  obtain ⟨original', hcopied', hq⟩ := path_copyWithOrigins hq (value.root_copyWithOrigins heap)
  obtain rfl := (Ref.Copied.biUnique (heap.nodup_reach value)).1 hcopied hcopied'
  exact h original p q hp hq

/-! ## Places that are taken -/

/-- A place has come to hold a container. -/
def Taken (base heap : Heap) (parent : Ref) (accessor : Accessor) (child : Ref) : Prop :=
  heap.Place parent accessor child ∧ ¬ base.Place parent accessor child

/-- The container is new. -/
theorem Gains.new_of_taken (h : base.Gains heap) (htaken : base.Taken heap parent accessor child) :
    base.size ≤ child ∧ child < heap.size :=
  (h.place htaken.1).resolve_left htaken.2

/-- A place has been taken before or after. -/
theorem Taken.before_or_after (h : base.Taken later parent accessor child) (heap : Heap) :
    base.Taken heap parent accessor child ∨ heap.Taken later parent accessor child := by
  by_cases hplace : heap.Place parent accessor child
  · exact .inl ⟨hplace, h.2⟩
  · exact .inr ⟨h.1, hplace⟩

/-- What an old value leads to holds nothing but at the places of old, unless it is new. -/
theorem Gains.taken_of_new (h : base.Gains heap) (hholds : base.Holds value)
    (hreach : heap.Reachable value parent) (hplace : heap.Place parent accessor child)
    (hnew : base.size ≤ child) : base.Taken heap parent accessor child := by
  refine ⟨hplace, fun hold => ?_⟩
  have hparent := h.reachable_of_lt hreach hold.lt
  exact Nat.not_lt.2 hnew (hholds child (hparent.child hold.to_child))

/-- A heap gains containers, and none of them has come to stand at two places. -/
structure Branches (base heap : Heap) : Prop where
  gains : base.Gains heap
  once : ∀ {parent parent' : Ref} {accessor accessor' : Accessor} {child : Ref},
    base.Taken heap parent accessor child → base.Taken heap parent' accessor' child →
    parent = parent' ∧ accessor = accessor'

namespace Branches

theorem refl (heap : Heap) : heap.Branches heap :=
  ⟨.refl heap, fun htaken _ => absurd htaken.1 htaken.2⟩

theorem trans (h : base.Branches heap) (h' : heap.Branches later) : base.Branches later := by
  refine ⟨h.gains.trans h'.gains, fun htaken htaken' => ?_⟩
  rcases htaken.before_or_after heap with hbefore | hafter
  · rcases htaken'.before_or_after heap with hbefore' | hafter'
    · exact h.once hbefore hbefore'
    · exact absurd (h.gains.new_of_taken hbefore).2
        (Nat.not_lt.2 (h'.gains.new_of_taken hafter').1)
  · rcases htaken'.before_or_after heap with hbefore' | hafter'
    · exact absurd (h.gains.new_of_taken hbefore').2
        (Nat.not_lt.2 (h'.gains.new_of_taken hafter).1)
    · exact h'.once hafter hafter'

/-- **Trees stay trees.** -/
theorem tree (h : base.Branches heap) (hholds : base.Holds value) (htree : base.Tree value) :
    heap.Tree value := by
  have hheld := tree_iff.1 htree
  -- What was at a place stands where it stood.
  have hold : ∀ {parent accessor child}, heap.Reachable value parent →
      heap.Place parent accessor child → child < base.size →
      base.Reachable value parent ∧ base.Place parent accessor child := by
    intro parent accessor child hreach hplace hlt
    have hplace := (h.gains.place hplace).resolve_right fun hnew => Nat.not_lt.2 hnew.1 hlt
    exact ⟨h.gains.reachable_of_lt hreach hplace.lt, hplace⟩
  refine tree_iff.2 ⟨fun hroot hreach hplace => ?_, fun hreach hreach' hplace hplace' => ?_⟩
  · obtain ⟨hreach, hplace⟩ := hold hreach hplace (hholds _ (.root hroot))
    exact hheld.root hroot hreach hplace
  · next child =>
    rcases Nat.lt_or_ge child base.size with hlt | hnew
    · obtain ⟨hreach, hplace⟩ := hold hreach hplace hlt
      obtain ⟨hreach', hplace'⟩ := hold hreach' hplace' hlt
      exact hheld.place hreach hreach' hplace hplace'
    · exact h.once (h.gains.taken_of_new hholds hreach hplace hnew)
        (h.gains.taken_of_new hholds hreach' hplace' hnew)

/-- The containers of a copy stand where those of the original stand. -/
theorem copy (htree : heap.Tree value) : heap.Branches (value.copyWithOrigins heap).2 := by
  refine ⟨.copy heap value, fun {parent parent' accessor accessor' child} htaken htaken' => ?_⟩
  -- Only copies hold what is new.
  have hcopied : ∀ {parent accessor},
      heap.Taken (value.copyWithOrigins heap).2 parent accessor child →
      ∃ original ref, Ref.Copied (heap.reach value) heap.size original parent ∧
        Ref.Copied (heap.reach value) heap.size ref child ∧ heap.Place original accessor ref := by
    intro parent accessor htaken
    rcases value.child_copyWithOrigins heap htaken.1.to_child with ⟨hlt, -⟩ | ⟨hle, -⟩
    · exact absurd
        ((place_of_fetch_eq (value.fetch_copyWithOrigins_of_lt heap hlt)).1 htaken.1) htaken.2
    · have hlt := htaken.1.lt
      rw [Value.size_copyWithOrigins] at hlt
      obtain ⟨original, horiginal⟩ := Ref.Copied.exists_of_lt hle hlt
      obtain ⟨ref, hchild, hplace⟩ := place_copyWithOrigins horiginal htaken.1
      exact ⟨original, ref, horiginal, hchild, hplace⟩
  obtain ⟨original, ref, horiginal, hchild, hplace⟩ := hcopied htaken
  obtain ⟨original', ref', horiginal', hchild', hplace'⟩ := hcopied htaken'
  have hunique := @Ref.Copied.biUnique (heap.reach value) heap.size (heap.nodup_reach value)
  obtain rfl := hunique.1 hchild hchild'
  obtain ⟨rfl, rfl⟩ := (tree_iff.1 htree).place (mem_reach_iff.1 horiginal.mem)
    (mem_reach_iff.1 horiginal'.mem) hplace hplace'
  exact ⟨hunique.2 horiginal horiginal', rfl⟩

/-- The containers of a document stand at one place at most. -/
theorem ofJson (json : Json) (heap : Heap) : heap.Branches (Value.ofJson json heap).2 := by
  have hsown := sown_ofJson json heap
  have hnew : ∀ {parent accessor child},
      heap.Taken (Value.ofJson json heap).2 parent accessor child → heap.size ≤ parent := by
    intro parent accessor child htaken
    by_contra hlt
    exact htaken.2 ((place_of_fetch_eq
      (hsown.extends_base.fetch_eq parent (Nat.not_le.1 hlt))).1 htaken.1)
  exact ⟨.ofJson json heap, fun htaken htaken' =>
    hsown.unique (hnew htaken) (hnew htaken') htaken.1 htaken'.1⟩

end Branches

/-! ## What comes of a tree -/

/-- What comes of a value: a heap that has branched in the value alone, and a value that is the
same, a scalar, or new and at no place. -/
structure Sprouts (base : Heap) (value : Value) (heap : Heap) (result : Value) : Prop where
  branches : base.Branches heap
  renews : base.Renews heap value result
  kept : ∀ ref < base.size, ¬ base.Reachable value ref → heap.fetch ref = base.fetch ref
  free : ∀ {root parent : Ref} {accessor : Accessor}, result.ref? = some root →
    ¬ base.Taken heap parent accessor root

/-- What old values lead to has come to stand nowhere. -/
theorem Gains.not_taken (h : base.Gains heap) (hholds : base.Holds value)
    (hreach : base.Reachable value ref) : ¬ base.Taken heap parent accessor ref := fun htaken =>
  Nat.not_lt.2 (h.new_of_taken htaken).1 (hholds ref hreach)

namespace Sprouts

theorem refl (heap : Heap) (value : Value) : heap.Sprouts value heap value :=
  ⟨.refl heap, .same, fun _ _ _ => rfl, fun _ htaken => htaken.2 htaken.1⟩

theorem scalar (heap : Heap) (value : Value) (h : result.ref? = none) :
    heap.Sprouts value heap result :=
  ⟨.refl heap, .scalar h, fun _ _ _ => rfl, fun _ htaken => htaken.2 htaken.1⟩

theorem reachable (h : base.Sprouts value heap result) (hreach : heap.Reachable result ref) :
    base.Reachable value ref ∨ base.size ≤ ref ∧ ref < heap.size :=
  h.renews.reachable h.branches.gains hreach

theorem holds (h : base.Sprouts value heap result) (hholds : base.Holds value) :
    heap.Holds result := by
  intro ref hreach
  rcases h.reachable hreach with hold | ⟨-, hlt⟩
  · exact Nat.lt_of_lt_of_le (hholds ref hold) h.branches.gains.size_le
  · exact hlt

/-- **What comes of a tree is a tree.** -/
theorem tree (h : base.Sprouts value heap result) (hholds : base.Holds value)
    (htree : base.Tree value) : heap.Tree result := by
  have hgains := h.branches.gains
  rcases h.renews with _ | hnone | ⟨hroot, hle, hlt⟩
  · exact h.branches.tree hholds htree
  · exact fun ref p q hp _ => absurd hp.reachable (not_reachable_of_ref?_none hnone ref)
  · -- All that is new has come to stand where it stands.
    have htaken : ∀ {parent accessor child}, heap.Reachable result parent →
        heap.Place parent accessor child → base.Taken heap parent accessor child := by
      intro parent accessor child hreach hplace
      have hnew := hgains.new_of_reachable
        (fun root heq => Option.some.inj (hroot.symm.trans heq) ▸ ⟨hle, hlt⟩) hreach
      exact ⟨hplace, fun hold => Nat.not_lt.2 hnew.1 hold.lt⟩
    exact tree_iff.2 ⟨fun heq hreach hplace => h.free heq (htaken hreach hplace),
      fun hreach hreach' hplace hplace' =>
        h.branches.once (htaken hreach hplace) (htaken hreach' hplace')⟩

/-- What neither step leads to is left alone by both. -/
theorem kept_trans {u v v' w : Value} (h : base.Sprouts u heap v) (h' : heap.Sprouts v' later w)
    (hreach : ∀ ref < base.size, heap.Reachable v' ref → base.Reachable u ref) :
    ∀ ref < base.size, ¬ base.Reachable u ref → later.fetch ref = base.fetch ref := by
  intro ref hlt hfree
  have hlt' := Nat.lt_of_lt_of_le hlt h.branches.gains.size_le
  rw [h'.kept ref hlt' fun hstep => hfree (hreach ref hlt hstep), h.kept ref hlt hfree]

theorem trans {u v w : Value} (h : base.Sprouts u heap v) (h' : heap.Sprouts v later w) :
    base.Sprouts u later w where
  branches := h.branches.trans h'.branches
  renews := h.renews.trans h'.renews h.branches.gains.size_le h'.branches.gains.size_le
  kept := h.kept_trans h' fun ref hlt hreach =>
    (h.reachable hreach).resolve_right fun hnew => Nat.not_lt.2 hnew.1 hlt
  free := by
    intro root parent accessor hroot htaken
    rcases htaken.before_or_after heap with hbefore | hafter
    · obtain ⟨-, hlt⟩ := h.branches.gains.new_of_taken hbefore
      rcases h'.renews with _ | hnone | ⟨hroot', hle, -⟩
      · exact h.free hroot hbefore
      · rw [hnone] at hroot
        cases hroot
      · obtain rfl := Option.some.inj (hroot'.symm.trans hroot)
        exact Nat.not_lt.2 hle hlt
    · exact h'.free hroot hafter

/-- A document that stands in for nothing. -/
theorem ofJson (json : Json) (heap : Heap) (value : Value) :
    heap.Sprouts value (Value.ofJson json heap).2 (Value.ofJson json heap).1 where
  branches := .ofJson json heap
  renews := .ofJson json heap value
  kept := fun ref hlt _ => (sown_ofJson json heap).extends_base.fetch_eq ref hlt
  free := by
    intro root parent accessor hroot htaken
    have hsown := sown_ofJson json heap
    obtain ⟨-, -, hfree⟩ := hsown.roots _ (List.mem_singleton_self _) root hroot
    rcases Nat.lt_or_ge parent heap.size with hlt | hle
    · exact htaken.2 ((place_of_fetch_eq (hsown.extends_base.fetch_eq parent hlt)).1 htaken.1)
    · exact hfree parent accessor hle htaken.1

section Parts

variable {now : Heap} (hholds : base.Holds value) (h : base.Sprouts value now value)
  (h' : now.Sprouts (base.get value accessor) later result)
include hholds h h'

/-- What has come of a part belongs to what comes of the whole. -/
theorem skip : base.Sprouts value later value where
  branches := h.branches.trans h'.branches
  renews := .same
  kept := h.kept_trans h' fun _ hlt hreach =>
    (h.branches.gains.reachable_of_lt hreach hlt).of_get
  free := fun hroot =>
    (h.branches.gains.trans h'.branches.gains).not_taken hholds (.root hroot)

/-- **What has come of a part is put where the part was.** -/
theorem put (href : value.ref? = some ref) :
    base.Sprouts value (later.put ref accessor result) value := by
  have hskip := skip hholds h h'
  have hput : base.Gains (later.put ref accessor result) := hskip.branches.gains.put
    fun child hchild => (h'.renews.place_or_new href hchild).imp_right fun hnew =>
      ⟨Nat.le_trans h.branches.gains.size_le hnew.1, hnew.2⟩
  -- A container that is put there has come to stand nowhere else.
  have hapart : ∀ {parent other child}, base.Taken later parent other child →
      result.ref? = some child → ¬ base.Place ref accessor child → False := by
    intro parent other child htaken hchild hnew
    rcases htaken.before_or_after now with hbefore | hafter
    · rcases h'.renews.place_or_new href hchild with hplace | ⟨hle, -⟩
      · exact hnew hplace
      · exact Nat.not_lt.2 hle (h.branches.gains.new_of_taken hbefore).2
    · exact h'.free hchild hafter
  refine ⟨⟨hput, fun htaken htaken' => ?_⟩, .same, fun other hlt hfree => ?_,
    fun hroot => hput.not_taken hholds (.root hroot)⟩
  · rcases place_put htaken.1 with hplace | ⟨rfl, rfl, hchild⟩
    · rcases place_put htaken'.1 with hplace' | ⟨rfl, rfl, hchild'⟩
      · exact hskip.branches.once ⟨hplace, htaken.2⟩ ⟨hplace', htaken'.2⟩
      · exact (hapart ⟨hplace, htaken.2⟩ hchild' htaken'.2).elim
    · rcases place_put htaken'.1 with hplace' | ⟨rfl, rfl, hchild'⟩
      · exact (hapart ⟨hplace', htaken'.2⟩ hchild htaken.2).elim
      · exact ⟨rfl, rfl⟩
  · rw [fetch_put_of_ne]
    · exact hskip.kept other hlt hfree
    · rintro rfl
      exact hfree (.root href)

end Parts

/-- What comes of a copy leaves the value alone, and all that was there. -/
theorem back (hholds : heap.Holds value) (htree : heap.Tree value)
    (h : (value.copyWithOrigins heap).2.Sprouts (value.copyWithOrigins heap).1.1 later result) :
    heap.Sprouts value later value ∧ heap.Extends later := by
  have hbranches := (Branches.copy htree).trans h.branches
  have hkept : ∀ ref < heap.size, later.fetch ref = heap.fetch ref := by
    intro ref hlt
    rw [h.kept ref (Nat.lt_of_lt_of_le hlt (Gains.copy heap value).size_le) fun hreach => ?_,
      value.fetch_copyWithOrigins_of_lt heap hlt]
    obtain ⟨original, hcopied, -⟩ := reachable_copyWithOrigins hreach
    exact Nat.not_lt.2 hcopied.le hlt
  exact ⟨⟨hbranches, .same, fun ref hlt _ => hkept ref hlt,
    fun hroot => hbranches.gains.not_taken hholds (.root hroot)⟩, hbranches.gains.size_le, hkept⟩

end Sprouts

/-! ## What is withheld -/

/-- Of the new containers, neither old values nor what comes of the value lead to one that is
barred. -/
def Withholds (barred : Ref → Prop) (base heap : Heap) (result : Value) : Prop :=
  ∀ ref, barred ref → base.size ≤ ref →
    (∀ old, base.Holds old → ¬ heap.Reachable old ref) ∧ ¬ heap.Reachable result ref

namespace Withholds

variable {barred : Ref → Prop}

/-- What a value that is held leads to is not new. -/
theorem same (hholds : base.Holds value) : Withholds barred base base value :=
  fun ref _ hle => ⟨fun _ hold hreach => Nat.not_lt.2 hle (hold ref hreach),
    fun hreach => Nat.not_lt.2 hle (hholds ref hreach)⟩

theorem scalar (h : result.ref? = none) : Withholds barred base base result :=
  fun ref _ hle => ⟨fun _ hold hreach => Nat.not_lt.2 hle (hold ref hreach),
    not_reachable_of_ref?_none h ref⟩

/-- New containers of which none is barred. -/
theorem of_not_barred (hheap : heap.Sprouts value later result) (hholds : heap.Holds value)
    (h : ∀ ref, heap.size ≤ ref → ref < later.size → ¬ barred ref) :
    Withholds barred heap later result := by
  intro ref hbarred hle
  have hnone : ∀ {value}, later.Holds value → ¬ later.Reachable value ref := fun hold hreach =>
    h ref hle (hold ref hreach) hbarred
  exact ⟨fun old hold => hnone (hheap.branches.gains.holds hold), hnone (hheap.holds hholds)⟩

/-- What is barred from the heap, old values do not lead to later. -/
theorem not_reachable (h : Withholds barred base heap result) {w : Value}
    (hlater : heap.Gains later) (h' : Withholds barred heap later w) (hgains : base.Gains heap)
    (hbarred : barred ref) (hle : base.size ≤ ref) {old : Value} (hold : base.Holds old) :
    ¬ later.Reachable old ref := by
  rcases Nat.lt_or_ge ref heap.size with hlt | hnew
  · exact fun hreach => (h ref hbarred hle).1 old hold (hlater.reachable_of_lt hreach hlt)
  · exact (h' ref hbarred hnew).1 old (hgains.holds hold)

theorem trans {u v w : Value} (h : Withholds barred base heap v)
    (hbase : base.Sprouts u heap v) (h' : Withholds barred heap later w)
    (hheap : heap.Sprouts v later w) : Withholds barred base later w := by
  refine fun ref hbarred hle => ⟨fun old hold =>
    h.not_reachable hheap.branches.gains h' hbase.branches.gains hbarred hle hold, fun hreach => ?_⟩
  rcases hheap.reachable hreach with hold | ⟨hnew, -⟩
  · exact (h ref hbarred hle).2 hold
  · exact (h' ref hbarred hnew).2 hreach

section Parts

variable {now : Heap} (hholds : base.Holds value) (hbase : base.Sprouts value now value)
  (h : Withholds barred base now value)
  (hpart : now.Sprouts (base.get value accessor) later result)
  (h' : Withholds barred now later result)
include hholds hbase h hpart h'

theorem skip : Withholds barred base later value := by
  intro other hbarred hle
  have hnone : ∀ old, base.Holds old → ¬ later.Reachable old other := fun old =>
    h.not_reachable hpart.branches.gains h' hbase.branches.gains hbarred hle
  exact ⟨hnone, hnone value hholds⟩

/-- What has come of a part does not lead to what is barred. -/
theorem put : Withholds barred base (later.put ref accessor result) value := by
  intro other hbarred hle
  have hresult : ¬ later.Reachable result other := by
    intro hreach
    rcases hpart.reachable hreach with hold | ⟨hnew, -⟩
    · exact (h other hbarred hle).1 _ (hholds.get accessor) hold
    · exact (h' other hbarred hnew).2 hreach
  have hnone : ∀ old, base.Holds old → ¬ (later.put ref accessor result).Reachable old other :=
    fun old hold hreach => (reachable_put hreach).elim
      (h.not_reachable hpart.branches.gains h' hbase.branches.gains hbarred hle hold) hresult
  exact ⟨hnone, hnone value hholds⟩

end Parts

/-- Where all that was there has been left alone, nothing old leads to what is new. -/
theorem of_extends (hholds : heap.Holds value) (h : heap.Extends later) :
    Withholds barred heap later value := by
  have hnone : ∀ ref, heap.size ≤ ref → ∀ old, heap.Holds old → ¬ later.Reachable old ref := by
    intro ref hle old hold hreach
    refine Nat.not_lt.2 hle (hold ref (hreach.of_fetch_eq fun other hother => ?_))
    exact h.fetch_eq other (hold other hother)
  exact fun ref _ hle => ⟨hnone ref hle, hnone ref hle value hholds⟩

end Withholds

end Conform.Heap
