import Conform.Proofs.Validation.Discipline
import Conform.Proofs.Validation.Trial
import Conform.Proofs.Value.Copy
import Conform.Proofs.Value.Document

/-!
# Failed alternatives change nothing

An alternative is tried on a copy, and from a copy no container that was there before can
be reached.  So whatever the trial fills in, replaces and writes back goes into new
containers, as long as the program around the library does not bring old ones in: its
defaults and transforms have to be local.

## Main definitions

* `Run.Local`, `Definition.Local`: steps that stay with their argument and what is new.
* `Invariant.untouched`: new containers hold new ones, and old ones are as they were.

## Main results

* `Definition.Repeatable.local`: definitions that do the same each time are local.
* `Check.Failed.untouched`: alternatives that fail leave every container as it was.
* `Check.fetch_either`: so does `either`, unless an alternative is clean.
-/

namespace Conform

variable {σ α : Type}

/-! ## Local steps -/

/-- A step that touches, keeps and gives no container but those of its argument and those
that it makes. -/
structure Run.Local (argument : Value) (m : Run σ α) (gives : α → Value → Prop) : Prop where
  size_le : ∀ world, world.heap.size ≤ (m world).2.heap.size
  touches : ∀ world ref, ref < world.heap.size → ¬ world.heap.Reachable argument ref →
    (m world).2.heap.fetch ref = world.heap.fetch ref
  keeps : ∀ world parent child, world.heap.Reachable argument parent ∨ world.heap.size ≤ parent →
    (m world).2.heap.Child parent child →
    world.heap.Reachable argument child ∨ world.heap.size ≤ child
  gives : ∀ world value, gives (m world).1 value → ∀ ref, value.ref? = some ref →
    world.heap.Reachable argument ref ∨ world.heap.size ≤ ref

/-- The default and the transform of a definition are local. -/
def Definition.Local (host : Host σ) : Definition → Prop
  | .node keywords =>
    (∀ fallback, keywords.fallback = some fallback →
      Run.Local .null (fallback.produce host) Eq) ∧
      ∀ transform, keywords.custom = some transform → ∀ value,
        Run.Local value (transform.apply host value) fun result value' => result = .ok value'
  | _ => True

/-- The contents of a document are new. -/
theorem Run.local_literal (host : Host σ) (json : Json) :
    Run.Local .null ((Fallback.literal json).produce host) Eq where
  size_le := by
    intro world
    obtain ⟨count, hgrown, -⟩ := Heap.grown_ofJson json world.heap world.heap
    exact hgrown.size_left ▸ Nat.le_add_right _ _
  touches := by
    intro world ref hlt _
    obtain ⟨count, hgrown, -⟩ := Heap.grown_ofJson json world.heap world.heap
    exact hgrown.fetch_left ref hlt
  keeps := by
    intro world parent child hparent hchild
    have hle := hparent.resolve_left (Heap.not_reachable_of_ref?_none rfl parent)
    exact .inr (Heap.new_of_child_ofJson hle hchild).1
  gives := by
    rintro world _ rfl ref href
    exact .inr (Heap.new_of_ref?_ofJson href).1

/-- To see whether an array is empty changes nothing. -/
theorem Transform.world_nonEmpty (host : Host σ) (value : Value) (world : World σ) :
    (Transform.nonEmpty.apply host value world).2 = world := by
  simp only [Transform.apply]
  split
  · split <;> rfl
  · rfl

/-- An array that is not empty is given back. -/
theorem Transform.eq_of_nonEmpty {host : Host σ} {value value' : Value} {world : World σ}
    (h : (Transform.nonEmpty.apply host value world).1 = .ok value') : value' = value := by
  simp only [Transform.apply] at h
  split at h
  · split at h
    · cases h
    · cases h; rfl
  · cases h; rfl

/-- **Repeatable definitions are local**, in particular those that are written out. -/
theorem Definition.Repeatable.local {host : Host σ} {definition : Definition}
    (h : definition.Repeatable host) : definition.Local host := by
  cases definition with
  | shorthand type => trivial
  | deferred thunk => trivial
  | node keywords =>
    refine ⟨fun fallback hfallback => ?_, fun transform hcustom => ?_⟩
    · cases fallback with
      | literal json => exact Run.local_literal host json
      | produced code => exact absurd hfallback (h.fallback keywords code rfl)
    · rw [h.custom keywords rfl] at hcustom
      cases hcustom

/-! ## Old and new containers -/

/-- The containers that a value leads to and the new ones. -/
def Heap.Touchable (base : Heap) (value : Value) (ref : Ref) : Prop :=
  base.Reachable value ref ∨ base.size ≤ ref

namespace Invariant

/-- Containers that are owned hold what is owned, and all others that there were are as
they were. -/
def territory (base : Heap) (own : Ref → Prop) : Invariant Still where
  holds := fun _ heap => base.size ≤ heap.size ∧
    (∀ ref, ref < base.size → ¬ own ref → heap.fetch ref = base.fetch ref) ∧
    ∀ parent child, own parent → heap.Child parent child → own child
  own := fun _ => own
  own_mono := fun _ => id
  closed := fun hholds hown hchild => hholds.2.2 _ _ hown hchild
  store := by
    rintro _ heap ref container ⟨hsize, hframe, hclosed⟩ hown hcontainer
    refine ⟨by rwa [Heap.size_store], fun other hlt hother => ?_,
      fun parent child hparent hchild => ?_⟩
    · have hne : ref ≠ other := fun heq => hother (heq ▸ hown)
      rw [Heap.fetch_store_of_ne _ _ hne]
      exact hframe other hlt hother
    · obtain ⟨part, hpart, href⟩ := hchild
      rw [Heap.children, Heap.fetch_store] at hpart
      split at hpart
      · exact hcontainer part hpart child href
      · exact hclosed parent child hparent ⟨part, hpart, href⟩

/-- New containers hold new ones, and old ones are as they were. -/
abbrev untouched (base : Heap) : Invariant Still := territory base fun ref => base.size ≤ ref

variable {base heap : Heap}

theorem holds_untouched_self : (untouched base).holds .still base := by
  refine ⟨Nat.le_refl _, fun _ _ _ => rfl, fun parent child hparent hchild => ?_⟩
  obtain ⟨part, hpart, -⟩ := hchild
  rw [Heap.children_of_size_le hparent] at hpart
  cases hpart

/-- What is touchable holds what is touchable. -/
theorem holds_touchable_self (base : Heap) (value : Value) :
    (territory base (base.Touchable value)).holds .still base := by
  refine ⟨Nat.le_refl _, fun _ _ _ => rfl, fun parent child hparent hchild => ?_⟩
  rcases hparent with hreach | hle
  · exact .inl (.child hreach hchild)
  · obtain ⟨part, hpart, -⟩ := hchild
    rw [Heap.children_of_size_le hle] at hpart
    cases hpart

theorem fetch_eq_of_untouched (h : (untouched base).holds .still heap) {ref : Ref}
    (hlt : ref < base.size) : heap.fetch ref = base.fetch ref :=
  h.2.1 ref hlt (Nat.not_le.2 hlt)

theorem fields_eq_of_untouched (h : (untouched base).holds .still heap) {ref : Ref}
    (hlt : ref < base.size) : heap.fields ref = base.fields ref := by
  unfold Heap.fields
  rw [fetch_eq_of_untouched h hlt]

theorem items_eq_of_untouched (h : (untouched base).holds .still heap) {ref : Ref}
    (hlt : ref < base.size) : heap.items ref = base.items ref := by
  unfold Heap.items
  rw [fetch_eq_of_untouched h hlt]

theorem untouched_trans {later : Heap} (h : (untouched base).holds .still heap)
    (h' : (untouched heap).holds .still later) : (untouched base).holds .still later := by
  obtain ⟨hsize, hframe, hclosed⟩ := h
  obtain ⟨hsize', hframe', hclosed'⟩ := h'
  refine ⟨Nat.le_trans hsize hsize', fun ref hlt hold => ?_, fun parent child hparent hchild => ?_⟩
  · have hlt' := Nat.lt_of_lt_of_le hlt hsize
    rw [hframe' ref hlt' (Nat.not_le.2 hlt'), hframe ref hlt hold]
  · by_cases hlt : parent < heap.size
    · obtain ⟨part, hpart, href⟩ := hchild
      rw [Heap.children, hframe' parent hlt (Nat.not_le.2 hlt)] at hpart
      exact hclosed parent child hparent ⟨part, hpart, href⟩
    · exact Nat.le_trans hsize (hclosed' parent child (Nat.not_lt.1 hlt) hchild)

/-- Where old containers are as they were, a value leads to no more than it did. -/
theorem reachable_of_untouched {value : Value} (hvalue : base.Holds value)
    (h : (untouched base).holds .still heap) {ref : Ref} (hreach : heap.Reachable value ref) :
    base.Reachable value ref :=
  hreach.of_fetch_eq fun other hother => fetch_eq_of_untouched h (hvalue other hother)

section New

variable {own : Ref → Prop} (hnew : ∀ ref, base.size ≤ ref → own ref)
include hnew

/-- Where all that is new is owned, so is a copy of any value. -/
theorem territory_copy (h : (territory base own).holds .still heap) (value : Value) :
    (territory base own).holds .still (value.copyWithOrigins heap).2 ∧
      (territory base own).Owns .still (value.copyWithOrigins heap).1.1 := by
  obtain ⟨hsize, hframe, hclosed⟩ := h
  refine ⟨⟨?_, fun ref hlt hold => ?_, fun parent child hparent hchild => ?_⟩, fun ref href => ?_⟩
  · rw [Value.size_copyWithOrigins]
    exact Nat.le_trans hsize (Nat.le_add_right _ _)
  · rw [Value.fetch_copyWithOrigins_of_lt value heap (Nat.lt_of_lt_of_le hlt hsize)]
    exact hframe ref hlt hold
  · rcases Value.child_copyWithOrigins value heap hchild with ⟨-, hold⟩ | ⟨-, _, hcopied⟩
    · exact hclosed parent child hparent hold
    · exact hnew child (Nat.le_trans hsize hcopied.le)
  · obtain ⟨_, hcopied⟩ := Value.ref?_copyWithOrigins value heap href
    exact hnew ref (Nat.le_trans hsize hcopied.le)

/-- Where all that is new is owned, a local step on what is owned leaves all else as it
was. -/
theorem territory_local {argument : Value} {m : Run σ α} {gives : α → Value → Prop}
    (hm : Run.Local argument m gives) (hargument : (territory base own).Owns .still argument)
    {world : World σ} (h : (territory base own).holds .still world.heap) :
    (territory base own).holds .still (m world).2.heap ∧
      ∀ value, gives (m world).1 value → (territory base own).Owns .still value := by
  obtain ⟨hsize, hframe, hclosed⟩ := h
  -- All that the step may touch is owned, because what is owned leads to what is owned.
  have howned : ∀ ref, world.heap.Reachable argument ref ∨ world.heap.size ≤ ref → own ref := by
    rintro ref (hreach | hle)
    · induction hreach with
      | root hroot => exact hargument _ hroot
      | child _ hchild ih => exact hclosed _ _ ih hchild
    · exact hnew ref (Nat.le_trans hsize hle)
  refine ⟨⟨Nat.le_trans hsize (hm.size_le world), fun ref hlt hold => ?_,
    fun parent child hparent hchild => ?_⟩, fun value hvalue ref href => ?_⟩
  · rw [hm.touches world ref (Nat.lt_of_lt_of_le hlt hsize)
      fun hreach => hold (howned ref (.inl hreach))]
    exact hframe ref hlt hold
  · by_cases htouched : world.heap.Reachable argument parent ∨ world.heap.size ≤ parent
    · exact howned child (hm.keeps world parent child htouched hchild)
    · obtain ⟨hunreached, hlt⟩ := not_or.1 htouched
      obtain ⟨part, hpart, href⟩ := hchild
      rw [Heap.children, hm.touches world parent (Nat.not_le.1 hlt) hunreached] at hpart
      exact hclosed parent child hparent ⟨part, hpart, href⟩
  · exact howned ref (hm.gives world value hvalue ref href)

theorem keeps_territory {host : Host σ} {definition : Definition} (h : definition.Local host) :
    (territory base own).Keeps host definition := by
  cases definition with
  | shorthand type => trivial
  | deferred thunk => trivial
  | node keywords =>
    refine ⟨fun fallback hfallback i j hij world hholds => ?_,
      fun transform hcustom i value howns j hij world hholds => ?_⟩
    · obtain ⟨hholds', howns⟩ :=
        territory_local hnew (h.1 fallback hfallback) (Owns.scalar rfl) hholds
      exact ⟨.still, le_refl _, hholds', howns _ rfl⟩
    · obtain ⟨hholds', howns'⟩ :=
        territory_local hnew (h.2 transform hcustom value) howns hholds
      exact ⟨.still, le_refl _, hholds', howns'⟩

end New

/-- A copy of any value is new. -/
theorem untouched_copy (h : (untouched base).holds .still heap) (value : Value) :
    (untouched base).holds .still (value.copyWithOrigins heap).2 ∧
      (untouched base).Owns .still (value.copyWithOrigins heap).1.1 :=
  territory_copy (fun _ => id) h value

end Invariant

/-! ## Failed alternatives -/

/-- Old containers are as they were at every call of a trial. -/
def Discipline.untouched (host : Host σ) (base : Heap) :
    Discipline host (Definition.Local host) Still where
  fits := fun _ I _ _ => I = Invariant.untouched base
  permitted := fun _ _ _ => True
  exhaustible := True
  mono := fun h _ => h
  keeps := fun h hlocal => h ▸ Invariant.keeps_territory (fun _ => id) hlocal
  permits := fun _ _ _ _ _ => trivial
  spent := fun _ => trivial
  visited := fun h _ => h
  entered := fun h _ _ _ => h
  fork := by
    rintro _ _ _ _ heap value rfl hholds -
    obtain ⟨hholds', howns⟩ := Invariant.untouched_copy hholds value
    exact ⟨_, .still, rfl, hholds', howns, fun _ _ _ h => ⟨.still, le_refl _, h⟩⟩

namespace Check

variable {host : Host σ} {base : Heap} {depth : Nat} {value : Value}

/-- A trial leaves old containers as they were. -/
theorem untouched_tryAlternative {alternative : Definition} {session : Session σ}
    {r : EStateM.Result ValidationError (Session σ) (List Violation)}
    (htry : tryAlternative (checkWithin host depth) value alternative session = r)
    (hlocal : alternative.Throughout host (Definition.Local host))
    (h : (Invariant.untouched base).holds .still session.world.heap) :
    (Invariant.untouched base).holds .still (final r).world.heap := by
  -- The check is compared with one that is guarded by nothing, and that is itself.
  let guarded := checkGuarded host (Discipline.untouched host base).permitted .exhausted depth
  have hfollows : ((Invariant.untouched base).scope σ True session.context).Follows .still
      (tryAlternative (checkWithin host (0 + depth)) value alternative)
      (tryAlternative guarded value alternative) fun _ => Eq := by
    refine Invariant.follows_tryAlternative (κ := Still) fun _ _ heap hholds => ?_
    obtain ⟨hholds', howns⟩ := Invariant.untouched_copy hholds value
    exact ⟨Invariant.untouched base, .still, hholds', fun _ _ _ h => ⟨.still, le_refl _, h⟩,
      (Discipline.untouched host base).follows _ depth 0 (fun _ => rfl) rfl howns hlocal⟩
  obtain ⟨-, ⟨_, -, hholds', -⟩, -⟩ := Invariant.eq_of_follows hfollows (fun _ _ _ h => h) h
  rwa [Nat.zero_add, htry] at hholds'

/-- Alternatives that fail leave old containers as they were. -/
theorem Failed.untouched {definitions : List Definition} {session after : Session σ}
    {inner : List (List Violation)}
    (h : Failed (checkWithin host depth) value definitions session inner after)
    (hlocal : ∀ d ∈ definitions, d.Throughout host (Definition.Local host))
    (hbase : (Invariant.untouched base).holds .still session.world.heap) :
    (Invariant.untouched base).holds .still after.world.heap := by
  induction h with
  | nil => exact hbase
  | @cons alternative rest session middle after violations inner htry _ _ ih =>
    have hmiddle := untouched_tryAlternative htry (hlocal alternative (List.mem_cons_self ..)) hbase
    exact ih (fun d hd => hlocal d (List.mem_cons_of_mem _ hd)) hmiddle

/-- So does a trial that comes to a fault after others have failed. -/
theorem FirstFault.untouched {definitions : List Definition} {session after : Session σ}
    {fault : ValidationError}
    (h : FirstFault (checkWithin host depth) value definitions session fault after)
    (hlocal : ∀ d ∈ definitions, d.Throughout host (Definition.Local host))
    (hbase : (Invariant.untouched base).holds .still session.world.heap) :
    (Invariant.untouched base).holds .still after.world.heap := by
  obtain ⟨before, alternative, rest, inner, middle, rfl, hfailed, hfault⟩ := h
  have hmiddle := hfailed.untouched
    (fun d hd => hlocal d (List.mem_append_left _ hd)) hbase
  exact untouched_tryAlternative hfault
    (hlocal alternative (List.mem_append_right _ (List.mem_cons_self ..))) hmiddle

/-- **Without a clean alternative, `either` leaves every container as it was** and gives
back the very value, if it gives any: when all alternatives fail, and when a trial comes
to a fault before one is clean.  All definitions read from documents qualify. -/
theorem fetch_either (host : Host σ) :
    (∀ json definition, Definition.ofJson json = .ok definition →
      definition.Throughout host (Definition.Local host)) ∧
    ∀ (depth : Nat) (resolved : Resolved) (definitions : List Definition) (value : Value)
      (session : Session σ), resolved.node.either = some definitions →
      (∀ d ∈ definitions, d.Throughout host (Definition.Local host)) →
      (∀ alternative after,
        ¬ FirstClean (checkWithin host depth) value definitions session alternative after) →
      (∀ ref, ref < session.world.heap.size →
        (final (either (checkWithin host depth) resolved value session)).world.heap.fetch ref =
          session.world.heap.fetch ref) ∧
        ∀ result after,
          either (checkWithin host depth) resolved value session = .ok result after →
          result = value := by
  constructor
  · intro json definition h
    exact ((Definition.written_ofJson json h).throughout host).imp fun _ h => h.local
  intro depth resolved definitions value session heither hlocal hnone
  have hself : (Invariant.untouched session.world.heap).holds .still session.world.heap :=
    Invariant.holds_untouched_self
  have hsame : either (checkWithin host depth) resolved value session =
      alternatives (checkWithin host depth) value [] definitions session := by
    simp only [either, heither]
  rw [hsame]
  rcases @alternatives_cases σ (checkWithin host depth) value [] definitions session with
    ⟨inner, after, hfailed, hend⟩ | ⟨fault, after, hfault, hend⟩ |
      ⟨alternative, after, hclean, -⟩
  · have hafter := hfailed.untouched hlocal hself
    rw [hend, report_return]
    split
    · exact ⟨fun ref hlt => Invariant.fetch_eq_of_untouched hafter hlt, nofun⟩
    · refine ⟨fun ref hlt => Invariant.fetch_eq_of_untouched hafter hlt, ?_⟩
      rintro result _ ⟨⟩
      rfl
  · have hafter := hfault.untouched hlocal hself
    rw [hend]
    exact ⟨fun ref hlt => Invariant.fetch_eq_of_untouched hafter hlt, nofun⟩
  · exact absurd hclean (hnone alternative after)

/-- An alternative that fills an item of the copy and then fails: the item itself is
still null. -/
theorem fetch_either_filled :
    let filling : Definition :=
      .node
        { kind := some .number
          items := some (.node { fallback := some (.literal (.bool true)) }) }
    let session : Session Unit := ⟨.start {}, ⟨{ containers := #[.array [.null]] }, ()⟩⟩
    (final (either (checkWithin default 3) ⟨{ either := some [filling] }, true, false⟩ (.array 0)
      session)).world.heap.fetch 0 = .array [.null] := by
  intro filling session
  have hwritten : filling.Written := by
    refine Definition.written_node_iff.2 ⟨rfl, nofun, nofun, nofun, ?_, nofun⟩
    rintro _ ⟨⟩
    exact Definition.written_node_iff.2 ⟨rfl, nofun, nofun, nofun, nofun, nofun⟩
  have hfailed : Failed (checkWithin default 3) (.array 0) [filling] session _ _ :=
    .cons rfl (List.cons_ne_nil _ _) .nil
  refine ((fetch_either default).2 3 _ [filling] (.array 0) session rfl ?_ ?_).1 0 (by decide)
  · intro d hd
    obtain rfl := List.mem_singleton.1 hd
    exact (hwritten.throughout _).imp fun _ h => h.local
  · exact fun _ _ => hfailed.not_firstClean

end Check

end Conform
