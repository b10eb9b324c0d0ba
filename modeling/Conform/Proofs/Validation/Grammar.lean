import Conform.Proofs.Definition.Described
import Conform.Proofs.Validation.Conformance
import Conform.Proofs.Validation.Unfolding
import Conform.Proofs.Validation.Verdict
import Conform.Proofs.Value.Denotation
import Conform.Validation.Validator

/-!
# Checking definitions against the grammar

A value that stands for a draft is checked against the grammar of definitions without a
fault, and without a complaint exactly if the draft is laid out as a definition.

The grammar refers to itself only where the definitions inside a container are checked, so
the height of the value bounds how deep the check goes; and at one place of the value no
more than three definitions are under way at a time.  Alternatives are tried on copies, and
a copy stands for the same draft as its original.

## Main definitions

* `Context.Poised`: a check that stands at a value for a draft, with room to go on.
* `Check.Judged`: a definition whose check judges what it says of drafts.

## Main results

* `Check.judged_node`: a node is judged if its parts are.
* `Check.judged_grammar`: the grammar is judged.
* `errors_grammar_of_makes`: the validator of definitions comes to a verdict on every value
  that stands for a draft.
* `ofJson_iff_conforms`: a document can be read as a definition exactly if it conforms to
  the grammar and is tidy at every place of a definition.
-/

namespace Conform

variable {σ : Type}

/-! ## Drafts and values that stand for them -/

namespace Heap.Denotes

variable {heap : Heap} {level : Ref → Nat} {draft : Draft} {value : Value}

theorem hasType_iff (h : heap.Denotes level draft value) {kind : TypeName} :
    Check.hasType kind value = true ↔ kind.Describes draft := by
  cases h <;> cases kind <;> simp [Check.hasType, TypeName.Describes]

/-- **What stands for a draft is described by the grammar** if the draft is laid out as a
definition: what the value holds, it holds under different names. -/
theorem describes_grammar_iff (h : heap.Denotes level draft value) :
    Definition.grammar.Describes draft ↔ draft.IsDefinition := by
  refine Definition.describes_grammar_iff ?_ ?_
  · rintro members rfl
    exact h.nodup_keys
  · rintro members rfl member hmem inner hinner
    obtain ⟨ref, rfl⟩ : ∃ ref, value = .object ref := by
      cases h
      exact ⟨_, rfl⟩
    have hmember := (h.field member.1).1
    rw [Draft.member, Entries.get?_of_mem h.nodup_keys hmem, Option.getD_some, hinner] at hmember
    exact hmember.nodup_keys

end Heap.Denotes

/-! ## Where a check stands -/

/-- A check stands at a value for a draft.  The value is of less than the given height
and lower than all containers on the way, and there is room for the given number of
definitions at this place. -/
structure Context.Poised (context : Context) (heap : Heap) (draft : Draft) (value : Value)
    (height room : Nat) : Prop where
  denotes : heap.Denotes context.originOf draft value
  collecting : context.asserting = false
  origins : ∀ origin ∈ context.origins, origin.1 < heap.size
  ancestors : ∀ ref, value.ref? = some ref →
    ∀ ancestor ∈ context.ancestors, context.originOf ref < ancestor
  height : ∀ ref, value.ref? = some ref → context.originOf ref < height
  roomy : context.Roomy room

namespace Context.Poised

variable {context : Context} {base heap : Heap} {draft : Draft} {value : Value} {height room : Nat}

theorem mono {less : Nat} (hle : less ≤ room) (h : context.Poised base draft value height room) :
    context.Poised base draft value height less :=
  { h with roomy := h.roomy.mono hle }

/-- Taking up a definition takes some of the room. -/
theorem visited (h : context.Poised base draft value height (room + 1)) :
    context.visited.Poised base draft value height room where
  denotes := h.denotes
  collecting := h.collecting
  origins := h.origins
  ancestors := h.ancestors
  height := h.height
  roomy := h.roomy.visited

theorem not_mem (h : context.Poised base draft value height room) {ref : Ref}
    (href : value.ref? = some ref) : context.originOf ref ∉ context.ancestors :=
  fun hmem => Nat.lt_irrefl _ (h.ancestors ref href _ hmem)

/-- One step on there is all the room, and what is there is lower. -/
theorem entered (h : context.Poised base draft value height room) {ref : Ref}
    (href : value.ref? = some ref) {inner : Draft} {part : Value}
    (hdenotes : base.Denotes context.originOf inner part)
    (hbelow : ∀ child, part.ref? = some child → context.originOf child < context.originOf ref)
    (accessor : Accessor) :
    (context.entered ref accessor).Poised base inner part (context.originOf ref) maxNesting where
  denotes := hdenotes
  collecting := h.collecting
  origins := h.origins
  ancestors := by
    intro child hchild ancestor hancestor
    rcases List.mem_cons.1 hancestor with rfl | hancestor
    · exact hbelow child hchild
    · exact Nat.lt_trans (hbelow child hchild) (h.ancestors ref href ancestor hancestor)
  height := hbelow
  roomy := h.roomy.entered ref accessor (Nat.le_refl _)

/-- A trial stands at the copy as the check stands at the value. -/
theorem fork (h : context.Poised base draft value height room)
    (hheap : (Invariant.untouched base).holds .still heap) :
    (context.fork (value.copyWithOrigins heap).1.2).Poised (value.copyWithOrigins heap).2 draft
      (value.copyWithOrigins heap).1.1 height room := by
  have hfresh : ∀ origin ∈ context.origins, origin.1 < heap.size :=
    fun origin horigin => Nat.lt_of_lt_of_le (h.origins origin horigin) hheap.1
  have horigin : ∀ {copy : Ref}, (value.copyWithOrigins heap).1.1.ref? = some copy →
      ∃ ref, value.ref? = some ref ∧
        (context.fork (value.copyWithOrigins heap).1.2).originOf copy = context.originOf ref := by
    intro copy hcopy
    obtain ⟨ref, href, hcopied⟩ := (value.alike_copyWithOrigins heap).symm.exists_of_ref? hcopy
    exact ⟨ref, href, originOf_fork_of_copied hfresh hcopied⟩
  have hdenotes : heap.Denotes context.originOf draft value :=
    h.denotes.mono ⟨hheap.1, fun ref hlt => Invariant.fetch_eq_of_untouched hheap hlt⟩
  exact
    { denotes := by
        refine Heap.Denotes.of_alike (fun r s hcopied _ => ?_) draft
          (value.alike_copyWithOrigins heap) hdenotes
        refine ⟨?_, originOf_fork_of_copied hfresh hcopied,
          value.agree_copyWithOrigins heap hcopied⟩
        rw [Value.size_copyWithOrigins]
        exact hcopied.lt
      collecting := rfl
      origins := fun origin => lt_of_mem_origins_fork hfresh
      ancestors := by
        intro copy hcopy ancestor hancestor
        obtain ⟨ref, href, heq⟩ := horigin hcopy
        exact heq ▸ h.ancestors ref href ancestor hancestor
      height := by
        intro copy hcopy
        obtain ⟨ref, href, heq⟩ := horigin hcopy
        exact heq ▸ h.height ref href
      roomy := h.roomy.fork _ }

end Context.Poised

namespace Check

variable {host : Host σ} {base : Heap} {context : Context} {draft : Draft} {value : Value}
  {height room : Nat} {resolved : Resolved}

/-! ## Keywords that look at the value alone -/

theorem judges_type (hpoised : context.Poised base draft value height room)
    (hmoment : resolved.node.kind ≠ some .dateTime) :
    Judges base context (type resolved value : Check σ Value) value
      (∀ kind, resolved.node.kind = some kind → kind.Describes draft) := by
  unfold type
  split
  · next hnone => exact (Judges.pure value).congr (by simp [hnone])
  · next hsome => exact absurd hsome hmoment
  · next kind _ hsome =>
    refine ((Judges.demand hpoised.collecting _ _).returning value).congr ?_
    simp [hsome, hpoised.denotes.hasType_iff]

theorem judges_oneOf (hpoised : context.Poised base draft value height room)
    (htexts : ∀ documents, resolved.node.allowed = some documents → ∀ json ∈ documents,
      ∃ text, json = .string text) :
    Judges base context (oneOf resolved value : Check σ Value) value
      (∀ documents, resolved.node.allowed = some documents →
        ∃ text, draft = .string text ∧ Json.string text ∈ documents) := by
  unfold oneOf
  split
  · next hnone => exact (Judges.pure value).congr (by simp [hnone])
  · next documents hsome =>
    -- Only a text has the contents of a text, in any heap.
    have htext : ∀ heap text,
        value.equalsJson heap (.string text) = true ↔ draft = .string text := by
      intro heap text
      rw [← hpoised.denotes.string_iff]
      cases value <;> simp [Value.equalsJson]
      exact eq_comm
    have hread : ∀ heap, (documents.any fun json => value.equalsJson heap json) = true ↔
        ∃ text, draft = .string text ∧ Json.string text ∈ documents := by
      intro heap
      rw [List.any_eq_true]
      constructor
      · rintro ⟨document, hmem, hequal⟩
        obtain ⟨text, rfl⟩ := htexts documents hsome document hmem
        exact ⟨text, (htext heap text).1 hequal, hmem⟩
      · rintro ⟨text, hdraft, hmem⟩
        exact ⟨.string text, hmem, (htext heap text).2 hdraft⟩
    have hsame : ∀ heap, (documents.any fun json => value.equalsJson heap json) =
        documents.any fun json => value.equalsJson base json :=
      fun heap => Bool.eq_iff_iff.2 ((hread heap).trans (hread base).symm)
    refine ((Judges.readHeap fun heap _ => hsame heap).after
      ((Judges.demand hpoised.collecting _ _).returning value)).congr ?_
    simp [hsome, hread base]

/-- An array is refused if it has no items, and only an array without items has none. -/
theorem nonEmpty_apply (hpoised : context.Poised base draft value height room) (world : World σ)
    (hheap : (Invariant.untouched base).holds .still world.heap) :
    (draft ≠ .array [] → (Transform.nonEmpty.apply host value world).1 = .ok value) ∧
      (draft = .array [] → ∃ reason, (Transform.nonEmpty.apply host value world).1 =
        .error reason) := by
  have hdenotes := hpoised.denotes
  simp only [Transform.apply]
  split
  · next ref =>
    have hread : world.heap.items ref = base.items ref :=
      Invariant.items_eq_of_untouched hheap (hdenotes.lt rfl)
    cases draft with
    | array items =>
      have hlength := hdenotes.items.1.length_eq
      rw [hread]
      cases hitems : base.items ref with
      | nil =>
        rw [hitems] at hlength
        obtain rfl : items = [] := List.length_eq_zero_iff.1 hlength
        exact ⟨fun h => absurd rfl h, fun _ => ⟨_, rfl⟩⟩
      | cons part rest =>
        rw [hitems] at hlength
        refine ⟨fun _ => rfl, ?_⟩
        rintro ⟨⟩
        cases hlength
    | _ => cases hdenotes
  · next hother =>
    refine ⟨fun _ => rfl, ?_⟩
    rintro rfl
    cases hdenotes with
    | array _ _ _ _ => exact absurd rfl (hother _)

theorem judges_custom (hpoised : context.Poised base draft value height room)
    (hnonEmpty : ∀ transform, resolved.node.custom = some transform → transform = .nonEmpty) :
    Judges base context (custom host resolved value) value
      (resolved.node.custom ≠ none → draft ≠ .array []) := by
  unfold custom
  split
  · next hnone => exact (Judges.pure value).congr (by simp [hnone])
  · next transform hsome =>
    obtain rfl := hnonEmpty transform hsome
    refine Judges.congr (P := draft ≠ .array []) ?_ (by simp [hsome])
    refine Terms.Ensures.after (P := fun result => (draft ≠ .array [] → result = .ok value) ∧
      (draft = .array [] → ∃ reason, result = .error reason))
      (.ofRun fun world hheap => ⟨?_, rfl, nonEmpty_apply hpoised world hheap⟩)
      fun result hresult => ?_
    · rwa [Transform.world_nonEmpty]
    · by_cases hempty : draft = .array []
      · obtain ⟨reason, rfl⟩ := hresult.2 hempty
        exact ((Judges.report hpoised.collecting _ _).returning value).congr (by simp [hempty])
      · obtain rfl := hresult.1 hempty
        exact (Judges.pure value).congr (by simp [hempty])

/-! ## Keywords that go into the parts -/

/-- The check of a definition, at any place where it may stand, judges what the definition
says of drafts. -/
def Judged (host : Host σ) (depth height room : Nat) (definition : Definition) : Prop :=
  ∀ (base : Heap) (context : Context) (draft : Draft) (value : Value),
    context.Poised base draft value height room →
    Judges base context (checkWithin host depth value definition) value
      (definition.Describes draft)

section Parts

variable {depth : Nat} {definition : Definition} {ref : Ref} {inner : Draft} {part : Value}

/-- A part of the value is lower, and all the room is there. -/
theorem judges_part (hpoised : context.Poised base draft value height room)
    (hjudged : ∀ lower < height, Judged host depth lower maxNesting definition)
    (href : value.ref? = some ref) (hdenotes : base.Denotes context.originOf inner part)
    (hbelow : ∀ child, part.ref? = some child → context.originOf child < context.originOf ref)
    (accessor : Accessor) :
    Judges base { context with ancestors := context.originOf ref :: context.ancestors }
      (under accessor (checkWithin host depth part definition)) part (definition.Describes inner) :=
  .under (hjudged _ (hpoised.height ref href) _ _ inner part
    (hpoised.entered href hdenotes hbelow accessor))

theorem judges_field {members : List (String × Draft)}
    (hpoised : context.Poised base (.object members) (.object ref) height room)
    (hjudged : ∀ lower < height, Judged host depth lower maxNesting definition) (name : String) :
    Judges base { context with ancestors := context.originOf ref :: context.ancestors }
      (field (checkWithin host depth) ref name definition) ()
      (definition.Describes (Draft.member members name)) := by
  have hread : ∀ heap, (Invariant.untouched base).holds .still heap →
      (heap.fields ref).get? name = (base.fields ref).get? name := by
    intro heap hheap
    rw [Invariant.fields_eq_of_untouched hheap (hpoised.denotes.lt rfl)]
  obtain ⟨hdenotes, hbelow⟩ := hpoised.denotes.field name
  refine (Judges.readHeap hread).after
    ((judges_part hpoised hjudged rfl hdenotes hbelow (.key name)).before ?_)
  -- A field that was there is put back, and a missing one stays missing.
  unfold Heap.fieldOf
  cases hget : (base.fields ref).get? name with
  | none => exact .pure ()
  | some current =>
    exact .changeHeap fun heap hheap => heap.insertField_self ((hread heap hheap).trans hget)

theorem judges_undeclared {members : List (String × Draft)}
    (hpoised : context.Poised base (.object members) (.object ref) height room)
    {inner : Context} (hcollecting : inner.asserting = false) (declared : List String) :
    Judges base inner (undeclared ref declared : Check σ Unit) ()
      (∀ name ∈ Entries.keys members, name ∈ declared) := by
  have hread : ∀ heap, (Invariant.untouched base).holds .still heap →
      (heap.fields ref).keys = (base.fields ref).keys := by
    intro heap hheap
    rw [Invariant.fields_eq_of_untouched hheap (hpoised.denotes.lt rfl)]
  refine ((Judges.readHeap hread).after
    (.forM fun name _ => .demandAt hcollecting _ _ _)).congr ?_
  simp [hpoised.denotes.keys_eq]

theorem judges_schema (hpoised : context.Poised base draft value height room)
    (hnode : resolved.node.Grammatical) (hstrict : resolved.node.schema ≠ none →
      resolved.strict = true)
    (hparts : resolved.node.PartsMeet (Judged host) depth height room) :
    Judges base context (schema host (checkWithin host depth) resolved value) value
      (∀ fields, resolved.node.schema = some (.declared fields) →
        ∀ members, draft = .object members →
          (∀ field ∈ fields, field.2.Describes (Draft.member members field.1)) ∧
            ∀ name ∈ Entries.keys members, name ∈ fields.map Prod.fst) := by
  unfold schema
  split
  · next hnone => exact (Judges.pure value).congr (by simp [hnone])
  · next fields hsome =>
    obtain ⟨declared, rfl, hkind, -⟩ := hnode.schema fields hsome
    have hdenotes := hpoised.denotes
    cases draft with
    | object members =>
      obtain ⟨ref, rfl⟩ : ∃ ref, value = .object ref := by
        cases hdenotes
        exact ⟨_, rfl⟩
      have hstrict : resolved.strict = true := hstrict (by simp [hsome])
      refine Judges.congr (P := (∀ field ∈ declared, field.2.Describes
        (Draft.member members field.1)) ∧ ∀ name ∈ Entries.keys members,
          name ∈ declared.map Prod.fst) ?_ (by simp [hsome])
      refine Judges.returning (a := ()) ?_ _
      refine (Judges.ofForcing fun _ => rfl).after (.inside (hpoised.not_mem rfl) ?_)
      refine Judges.bind (a := ()) (.forM fun field hfield =>
        judges_field hpoised (hparts.fields declared hsome field hfield) field.1) ?_
      rw [if_pos hstrict]
      refine judges_undeclared hpoised ?_ _
      exact hpoised.collecting
    | _ =>
      -- Of a value that is no object the type complains.
      have hnone : ∀ {ref}, value ≠ .object ref := by
        rintro ref rfl
        cases hdenotes
      have hdemand : ∀ m : Ref → Check σ Unit, withObject resolved value m =
          (do demand resolved.node.kind.isSome (.wrongType .object); return value) := by
        intro m
        unfold withObject
        split
        · exact absurd rfl hnone
        · rfl
      rw [hdemand]
      refine ((Judges.demand hpoised.collecting _ _).returning value).congr ?_
      simp [hkind]

theorem judges_item {items : List Draft}
    (hpoised : context.Poised base (.array items) (.array ref) height room)
    (hjudged : ∀ lower < height, Judged host depth lower maxNesting definition) {i : Nat}
    (hpart : (base.items ref)[i]? = some part) :
    Judges base { context with ancestors := context.originOf ref :: context.ancestors }
      (item (checkWithin host depth) ref definition part i) ()
      (∀ inner, items[i]? = some inner → definition.Describes inner) := by
  obtain ⟨hitems, hbelow⟩ := hpoised.denotes.items
  obtain ⟨hi, rfl⟩ := List.getElem?_eq_some_iff.1 hpart
  have hi' : i < items.length := hitems.length_eq ▸ hi
  refine Judges.congr (P := definition.Describes items[i]) ?_
    (by simp [List.getElem?_eq_getElem hi'])
  refine (judges_part hpoised hjudged rfl (hitems.get hi' hi)
    (hbelow _ (List.getElem_mem hi)) (.index i)).before (.changeHeap fun heap hheap => ?_)
  refine heap.setItem_self ?_
  rw [Invariant.items_eq_of_untouched hheap (hpoised.denotes.lt rfl)]
  exact hpart

theorem judges_entry {members : List (String × Draft)}
    (hpoised : context.Poised base (.object members) (.object ref) height room)
    (hjudged : ∀ lower < height, Judged host depth lower maxNesting definition) {name : String}
    (hpart : (base.fields ref).get? name = some part) :
    Judges base { context with ancestors := context.originOf ref :: context.ancestors }
      (entry (checkWithin host depth) ref definition name part) ()
      (definition.Describes (Draft.member members name)) := by
  obtain ⟨hdenotes, hbelow⟩ := hpoised.denotes.field name
  have hfield : base.fieldOf ref name = part := by rw [Heap.fieldOf, hpart, Option.getD_some]
  rw [hfield] at hdenotes hbelow
  refine (judges_part hpoised hjudged rfl hdenotes hbelow (.key name)).before
    (.changeHeap fun heap hheap => heap.insertField_self ?_)
  rwa [Invariant.fields_eq_of_untouched hheap (hpoised.denotes.lt rfl)]

theorem judges_items (hpoised : context.Poised base draft value height room)
    (hparts : resolved.node.PartsMeet (Judged host) depth height room) :
    Judges base context (items (checkWithin host depth) resolved value) value
      (∀ item, resolved.node.items = some item →
        (∃ items, draft = .array items ∧ ∀ i ∈ items, item.Describes i) ∨
          ∃ members, draft = .object members ∧ ∀ member ∈ members, item.Describes member.2) := by
  cases hsome : resolved.node.items with
  | none =>
    have hskip : (items (checkWithin host depth) resolved value : Check σ Value) =
        pure value := by
      simp only [items, hsome]
    rw [hskip]
    exact (Judges.pure value).congr (by simp)
  | some definition =>
    have hdenotes := hpoised.denotes
    cases hdenotes with
    | @array items ref _ =>
      obtain ⟨hitems, -⟩ := hpoised.denotes.items
      have hread : ∀ heap, (Invariant.untouched base).holds .still heap →
          heap.items ref = base.items ref := fun heap hheap =>
        Invariant.items_eq_of_untouched hheap (hpoised.denotes.lt rfl)
      simp only [Check.items, hsome]
      refine ((Judges.inside (hpoised.not_mem rfl) ((Judges.readHeap hread).after
        (.forM fun place hplace => judges_item hpoised (hparts.items definition hsome)
          (List.mk_mem_zipIdx_iff_getElem?.1 hplace)))).returning _).congr ?_
      -- Every item of the draft is at the place of an item of the array.
      simp only [Option.some.injEq, forall_eq', Draft.array.injEq, exists_eq_left', reduceCtorEq,
        false_and, exists_false, or_false]
      constructor
      · intro h inner hmem
        obtain ⟨i, hi, rfl⟩ := List.getElem_of_mem hmem
        have hi' : i < (base.items ref).length := hitems.length_eq ▸ hi
        exact h ((base.items ref)[i], i)
          (List.mk_mem_zipIdx_iff_getElem?.2 (List.getElem?_eq_getElem hi')) _
          (List.getElem?_eq_getElem hi)
      · exact fun h place _ inner hinner => h inner (List.mem_of_getElem? hinner)
    | @object members ref _ =>
      have hnodup := hpoised.denotes.nodup_keys
      have hread : ∀ heap, (Invariant.untouched base).holds .still heap →
          (heap.fields ref).entries = (base.fields ref).entries := by
        intro heap hheap
        rw [Invariant.fields_eq_of_untouched hheap (hpoised.denotes.lt rfl)]
      simp only [Check.items, hsome]
      refine ((Judges.inside (hpoised.not_mem rfl) ((Judges.readHeap hread).after
        (.forM fun place hplace => judges_entry hpoised (hparts.items definition hsome)
          (OrderedMap.get?_of_mem hplace)))).returning _).congr ?_
      simp only [Option.some.injEq, forall_eq', Draft.object.injEq, exists_eq_left', reduceCtorEq,
        false_and, exists_false, false_or]
      constructor
      · intro h member hmem
        obtain ⟨entry, hentry, hname⟩ : ∃ entry ∈ (base.fields ref).entries,
            entry.1 = member.1 := by
          have hkey : member.1 ∈ (base.fields ref).keys :=
            hpoised.denotes.keys_eq ▸ List.mem_map_of_mem hmem
          exact List.mem_map.1 hkey
        have hdescribes := h entry hentry
        rwa [hname, Draft.member, Entries.get?_of_mem hnodup hmem] at hdescribes
      · intro h entry hentry
        have hkey : entry.1 ∈ Entries.keys members :=
          hpoised.denotes.keys_eq ▸ List.mem_map_of_mem hentry
        obtain ⟨member, hmember, hname⟩ := List.mem_map.1 hkey
        rw [← hname, Draft.member, Entries.get?_of_mem hnodup hmember]
        exact h member hmember
    | _ =>
      simp only [items, hsome]
      exact ((Judges.report hpoised.collecting _ _).returning _).congr (by simp)

/-! ## Nodes -/

theorem judges_either (hpoised : context.Poised base draft value height room)
    (hparts : resolved.node.PartsMeet (Judged host) depth height room) :
    Judges base context (either (checkWithin host depth) resolved value) value
      (∀ alternatives, resolved.node.either = some alternatives →
        ∃ d ∈ alternatives, d.Describes draft) := by
  unfold either
  split
  · next hnone => exact (Judges.pure value).congr (by simp [hnone])
  · next definitions hsome =>
    refine Judges.congr (P := ∃ d ∈ definitions, d.Describes draft) ?_ (by simp [hsome])
    refine Judges.alternatives hpoised.collecting (fun d hd => ?_) fun d hd => ?_
    · exact Judges.tryAlternative fun heap hheap =>
        hparts.either definitions hsome d hd _ _ draft _ (hpoised.fork hheap)
    · exact hparts.either definitions hsome d hd base context draft value hpoised

variable {keywords : Node Definition}

/-- **The keywords of a node in turn** judge all that they say. -/
theorem judges_keywords (hpoised : context.Poised base draft value height room)
    (hnode : keywords.Grammatical) (hparts : keywords.PartsMeet (Judged host) depth height room)
    (policy : Policy) :
    Judges base context
      ((Check.keywords host (checkWithin host depth)).foldlM
        (fun value keyword => keyword (policy.complete keywords) value) value) value
      ((keywords.map Definition.Describes).Asks draft) := by
  have hstrict : (policy.complete keywords).node.schema ≠ none →
      (policy.complete keywords).strict = true := by
    intro hschema
    obtain ⟨fields, hsome⟩ := Option.ne_none_iff_exists'.1 hschema
    obtain ⟨_, -, -, hstrict⟩ := hnode.schema fields hsome
    simp [Policy.complete, hstrict]
  have hbounds : Judges base context (bounds (policy.complete keywords) value : Check σ Value)
      value True := by
    simp only [bounds, Policy.complete, hnode.bounds]
    exact .pure value
  have hrequire : Judges base context (require (policy.complete keywords) value : Check σ Value)
      value True := by
    simp only [require, Policy.complete, hnode.require]
    exact .pure value
  have hrestrict : Judges base context (restrict (policy.complete keywords) value : Check σ Value)
      value True := by
    simp only [restrict, Policy.complete, hnode.restrict]
    exact .pure value
  refine Judges.congr (Judges.foldlM
    (.cons (judges_type hpoised hnode.moment)
    (.cons (judges_oneOf hpoised hnode.allowed)
    (.cons hbounds
    (.cons (judges_either hpoised hparts)
    (.cons (judges_schema hpoised hnode hstrict hparts)
    (.cons hrequire
    (.cons hrestrict
    (.cons (judges_items hpoised hparts)
    (.cons (judges_custom hpoised hnode.custom) .nil)))))))))) ?_
  simp only [List.forall_mem_cons]
  -- What is asked is about the readings of sub-definitions, the keywords about these themselves.
  have hschema := @Node.forall_schema_map _ _ keywords Definition.Describes
  constructor
  · rintro ⟨kind, allowed, -, either, schema, -, -, items, custom, -⟩
    refine ⟨kind, allowed, Node.exists_either_map.2 either, hschema.2 ?_,
      Node.forall_items_map.2 items, custom⟩
    simp only [List.forall_mem_map, List.map_map]
    exact schema
  · rintro ⟨kind, allowed, either, schema, items, custom⟩
    have schema := hschema.1 schema
    simp only [List.forall_mem_map, List.map_map] at schema
    exact ⟨kind, allowed, trivial, Node.exists_either_map.1 either, schema, trivial, trivial,
      Node.forall_items_map.1 items, custom, by simp⟩

theorem judges_demands (hpoised : context.Poised base draft value height room)
    (hnode : keywords.Grammatical) (hparts : keywords.PartsMeet (Judged host) depth height room)
    (policy : Policy) :
    Judges base context
      (demands host (checkWithin host depth) (policy.complete keywords) value) value
      (Definition.Describes (.node keywords) draft) := by
  rw [Definition.describes_node]
  unfold demands
  split
  · next habsent =>
    have hnull : draft = .null := hpoised.denotes.null_iff.1 ((Value.isAbsent_iff value).1 habsent)
    refine ((Judges.demand hpoised.collecting _ _).returning value).congr ?_
    simp [Node.Describes, hnull, Policy.complete, hnode.required, Node.map]
  · next hthere =>
    have hjson : draft ≠ .null := fun hnull =>
      hthere ((Value.isAbsent_iff value).2 (hpoised.denotes.null_iff.2 hnull))
    refine (judges_keywords hpoised hnode hparts policy).congr ?_
    simp [Node.Describes, hjson]

/-- **A node is judged if its parts are**, one definition further down. -/
theorem judged_node (hnode : keywords.Grammatical)
    (hparts : keywords.PartsMeet (Judged host) depth height room) :
    Judged host (depth + 1) height (room + 1) (.node keywords) := by
  intro base context draft value hpoised
  refine Judges.visiting hpoised.roomy.nesting_lt ?_
  refine Judges.after (Judges.readContext (f := fun c => c.options.policy) fun _ => rfl) ?_
  refine Judges.after (a := context.options.policy.complete keywords)
    (Judges.ofForcing fun _ => rfl) ?_
  rw [supply_of_none (show (context.options.policy.complete keywords).node.fallback = none from
    hnode.fallback)]
  exact (Judges.pure value).after (judges_demands hpoised.visited hnode hparts _)

end Parts

/-! ## The grammar -/

/-- What is judged passes from the parts of a node to the node, and through the thunk with which
the grammar refers to itself. -/
theorem passable_judged (host : Host σ) : Definition.Passable (Judged host) where
  mono := fun hle h base context draft value hpoised =>
    h base context draft value (hpoised.mono hle)
  node := judged_node
  shorthand := by
    -- The name of a type is checked as the node with this type is.
    intro depth height room kind h base context draft value hpoised
    rw [Definition.describes_shorthand]
    exact h base context draft value hpoised
  thunk := by
    intro depth height room h base context draft value hpoised
    refine (h base context draft value hpoised).congr ?_
    rw [Definition.describes_anyDefinition, hpoised.denotes.describes_grammar_iff]

/-- **The grammar is judged** at every value for a draft, if there is room for two
definitions and the depth exceeds three times the height of the value. -/
theorem judged_grammar (host : Host σ) (height : Nat) {depth : Nat}
    (hdepth : 3 * height + 2 ≤ depth) : Judged host depth height 2 Definition.grammar :=
  (passable_judged host).grammar height hdepth

end Check

/-! ## Documents that are read as definitions -/

/-- A run in sequence, from the world that the first part has left. -/
theorem Run.bind_apply {α β : Type} (m : Run σ α) (f : α → Run σ β) (world : World σ) :
    (m >>= f) world = f (m world).1 (m world).2 := rfl

theorem Run.world_map {α β : Type} (m : Run σ α) (f : α → β) (world : World σ) :
    ((do return f (← m) : Run σ β) world).2 = (m world).2 := rfl

namespace Validator

variable {host : Host σ} {world : World σ}

/-- What a validator finds is what its check has found. -/
theorem errors_of_check {validator : Validator} {value : Value} {outcome : Outcome}
    (h : (check host validator.settings.options value validator.definition world).1 =
      .ok outcome) : (validator.errors host value world).1 = .ok outcome.violations? := by
  unfold errors validate
  rw [Run.bind_apply, h]
  rfl

/-- A validator leaves the world as its check has left it. -/
theorem world_errors (host : Host σ) (validator : Validator) (value : Value) (world : World σ) :
    (validator.errors host value world).2 =
      (check host validator.settings.options value validator.definition world).2 :=
  Run.world_map _ _ world

/-- The check of a definition lets pass what conforms to the grammar. -/
theorem withGrammar_of_conforms {settings : Settings} {lower : HeapM Value}
    {validator : Except DefinitionError Validator}
    (h : let made := Run.ofHeap lower world
      (grammar.errors host made.1 made.2).1 = .ok none) :
    (withGrammar host settings lower validator world).1 = validator := by
  unfold withGrammar checkGrammar
  split
  · rw [Run.bind_apply, Run.bind_apply, Run.bind_apply, h]
    rfl
  · rfl

end Validator

section Making

variable {m : HeapM Value} {draft : Draft} (hmakes : m.Makes draft)
include hmakes

/-- A check of a value that has just been made begins with room for all that the heap is
high. -/
theorem poised_of_makes (options : Options) (hcollecting : options.assert = false) (heap : Heap) :
    (Context.start options).Poised (m heap).2 draft (m heap).1 (m heap).2.size 2 := by
  -- Without trials every container is itself.
  have horigin : (Context.start options).originOf = id := funext fun _ => rfl
  obtain ⟨-, hdenotes⟩ := hmakes heap
  exact
    { denotes := horigin ▸ hdenotes
      collecting := hcollecting
      origins := nofun
      ancestors := fun _ _ _ => nofun
      height := fun ref href => horigin ▸ hdenotes.lt href
      roomy := .start options (Nat.le_of_ble_eq_true rfl) }

/-- **The validator of definitions comes to a verdict on a value that stands for a draft**,
and finds nothing exactly if the draft is laid out as a definition. -/
theorem errors_grammar_of_makes (host : Host σ) (world : World σ) :
    let made := Run.ofHeap m world
    ∃ violations?, (Validator.grammar.errors host made.1 made.2).1 = .ok violations? ∧
      (violations? = none ↔ draft.IsDefinition) := by
  intro made
  have hpoised := poised_of_makes hmakes Validator.grammar.settings.options rfl world.heap
  have hdepth : ∀ heap : Heap, 3 * heap.size + 2 ≤ nestingBound heap Definition.grammar := by
    intro heap
    simp only [nestingBound, maxNesting, nestingReserve]
    omega
  obtain ⟨violations, hcheck, hverdict⟩ := Check.Judges.check made.2
    (Check.judged_grammar host _ (hdepth _) _ _ draft _ hpoised)
  refine ⟨_, Validator.errors_of_check hcheck, ?_⟩
  rw [← hpoised.denotes.describes_grammar_iff, ← hverdict]
  cases violations <;> simp [Outcome.violations?]

end Making

/-- The validator of definitions finds nothing in the value of a document exactly if the
document is laid out as a definition. -/
theorem errors_grammar_ofJson {json : Json} (hdistinct : json.Distinct) (host : Host σ)
    (world : World σ) :
    let made := Run.ofHeap (Value.ofJson json) world
    ∃ violations?, (Validator.grammar.errors host made.1 made.2).1 = .ok violations? ∧
      (violations? = none ↔ json.IsDefinition) := by
  intro made
  rw [← Draft.isDefinition_ofJson_iff json hdistinct]
  exact errors_grammar_of_makes (HeapM.makes_ofJson json) host world

/-- **A document is read as a definition exactly if** the validator of definitions finds
nothing wrong with its value and every object at the place of a definition is tidy.  So
nothing that can be read as a definition is refused when the definition is checked first. -/
theorem ofJson_iff_conforms (host : Host σ) (json : Json) (hdistinct : json.Distinct)
    (world : World σ) :
    let made := Run.ofHeap (Value.ofJson json) world
    ((∃ definition, Definition.ofJson json = .ok definition) ↔
      (Validator.grammar.errors host made.1 made.2).1 = .ok none ∧
        ∀ members, json.Position (.object members) → Json.Tidy members) ∧
    ∀ settings definition, Definition.ofJson json = .ok definition →
      (Validator.ofJson host settings json world).1 = .ok ⟨definition, settings⟩ := by
  intro made
  obtain ⟨violations?, herrors, hverdict⟩ := errors_grammar_ofJson hdistinct host world
  have hconforms : (Validator.grammar.errors host made.1 made.2).1 = .ok none ↔
      json.IsDefinition := by
    rw [← hverdict, herrors, Except.ok.injEq]
  refine ⟨?_, fun settings definition hread => ?_⟩
  · rw [hconforms]
    exact Json.readable_iff json hdistinct
  · have hnone := hconforms.2 ((Json.readable_iff json hdistinct).1 ⟨definition, hread⟩).1
    unfold Validator.ofJson
    rw [Validator.withGrammar_of_conforms hnone, hread]
    rfl

/-- A definition with alternatives for its items is read and conforms, so it is kept.  With
a null for an argument it is not read, so that it does not conform or is not tidy. -/
theorem ofJson_iff_conforms_items :
    let host : Host Unit := default
    let world : World Unit := ⟨{}, ()⟩
    let item : Json := .object [("either", .array [.string "string", .string "number"])]
    let json : Json := .object [("items", item), ("default", .null)]
    let untidy : Json := .object [("items", item), ("optional", .null)]
    let found := fun json : Json =>
      let made := Run.ofHeap (Value.ofJson json) world
      (Validator.grammar.errors host made.1 made.2).1
    found json = .ok none ∧ (Validator.ofJson host {} json world).1.toOption.isSome ∧
      ¬ (found untidy = .ok none ∧
        ∀ members, untidy.Position (.object members) → Json.Tidy members) := by
  intro host world item json untidy found
  have hitem : item.Distinct := by
    refine .object (by decide) (List.forall_mem_singleton.2 (.array ?_))
    exact List.forall_mem_cons.2 ⟨.string _, List.forall_mem_singleton.2 (.string _)⟩
  have hdistinct : ∀ name, name ≠ "items" →
      Json.Distinct (.object [("items", item), (name, .null)]) := by
    intro name hname
    refine .object ?_ (List.forall_mem_cons.2 ⟨hitem, List.forall_mem_singleton.2 .null⟩)
    simpa using hname.symm
  obtain ⟨definition, hread⟩ : ∃ definition, Definition.ofJson json = .ok definition := ⟨_, rfl⟩
  obtain ⟨hiff, hmade⟩ := ofJson_iff_conforms host json (hdistinct _ (by decide)) world
  refine ⟨(hiff.1 ⟨definition, hread⟩).1, ?_, fun hconforms => ?_⟩
  · rw [hmade {} definition hread]
    rfl
  · obtain ⟨hiff, -⟩ := ofJson_iff_conforms host untidy (hdistinct _ (by decide)) world
    obtain ⟨_, ⟨⟩⟩ := hiff.2 hconforms

end Conform
