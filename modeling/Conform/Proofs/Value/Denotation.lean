import Conform.Proofs.Value.Draft
import Conform.Proofs.Value.Reach

/-!
# Values that stand for drafts

A value stands for a draft when it has the contents of the draft, in order.  Each of its
containers has a level, and those that it holds have lower levels; so the value does not
contain itself.  Where a value is made of parts that have been made before, every container
comes after those that it holds, and its place can serve as its level.  A copy has the
levels of its original.

## Main definitions

* `Heap.Denotes`: a value that stands for a draft.
* `Heap.Extends`: heaps that have grown.
* `HeapM.Makes`: a computation that makes a value for a draft.

## Main results

* `Heap.Denotes.of_alike`: a value alike to one that stands for a draft does so too.
* `Heap.Denotes.acyclic`: a value for a draft does not contain itself.
* `HeapM.makes_ofJson`: the value of a document stands for the draft of the document.
-/

namespace Conform

/-! ## Lists side by side -/

theorem forall₂_comp_of_mem {α β γ : Type} {P : α → β → Prop} {Q : β → γ → Prop}
    {R : α → γ → Prop} {as : List α} {bs : List β} {cs : List γ} (h : List.Forall₂ P as bs)
    (h' : List.Forall₂ Q bs cs) (hcomp : ∀ a ∈ as, ∀ b c, P a b → Q b c → R a c) :
    List.Forall₂ R as cs := by
  induction h generalizing cs with
  | nil => cases h'; exact .nil
  | @cons a b as bs hab _ ih =>
    obtain _ | ⟨hbc, hrest⟩ := h'
    exact .cons (hcomp a (List.mem_cons_self ..) b _ hab hbc)
      (ih hrest fun x hx => hcomp x (List.mem_cons_of_mem _ hx))

theorem forall₂_map_of_mem {α β γ : Type} {R : β → γ → Prop} {f : α → β} {g : α → γ} {xs : List α}
    (h : ∀ x ∈ xs, R (f x) (g x)) : List.Forall₂ R (xs.map f) (xs.map g) :=
  List.forall₂_map_left_iff.2 (List.forall₂_map_right_iff.2 (List.forall₂_same.2 h))

theorem exists_of_mem_forall₂ {α β : Type} {R : α → β → Prop} {as : List α} {bs : List β}
    (h : List.Forall₂ R as bs) {b : β} (hb : b ∈ bs) : ∃ a ∈ as, R a b := by
  obtain ⟨i, hi, rfl⟩ := List.getElem_of_mem hb
  have hi' : i < as.length := h.length_eq ▸ hi
  exact ⟨as[i], List.getElem_mem hi', h.get hi' hi⟩

namespace Heap

/-- A value has the contents of a draft, in order, and its containers hold only containers
of lower levels. -/
inductive Denotes (heap : Heap) (level : Ref → Nat) : Draft → Value → Prop where
  | null : Denotes heap level .null .null
  | bool (b : Bool) : Denotes heap level (.bool b) (.bool b)
  | number (x : Float) : Denotes heap level (.number x) (.number x)
  | string (s : String) : Denotes heap level (.string s) (.string s)
  | function (ref : FunctionRef) : Denotes heap level .function (.function ref)
  | array {items : List Draft} {ref : Ref} {values : List Value} : ref < heap.size →
      (∀ child, heap.Child ref child → level child < level ref) →
      heap.fetch ref = .array values → List.Forall₂ (Denotes heap level) items values →
      Denotes heap level (.array items) (.array ref)
  | object {members : List (String × Draft)} {ref : Ref} {fields : OrderedMap Value} :
      ref < heap.size → (∀ child, heap.Child ref child → level child < level ref) →
      heap.fetch ref = .object fields → Entries.keys members = fields.keys →
      List.Forall₂ (Denotes heap level) (members.map Prod.snd) (fields.entries.map Prod.snd) →
      Denotes heap level (.object members) (.object ref)

variable {heap heap' : Heap} {level level' : Ref → Nat}

namespace Denotes

theorem lt {draft : Draft} {value : Value} (h : heap.Denotes level draft value) {ref : Ref}
    (href : value.ref? = some ref) : ref < heap.size := by
  cases h with
  | array hlt _ _ _ => cases href; exact hlt
  | object hlt _ _ _ _ => cases href; exact hlt
  | _ => cases href

/-- The containers that correspond to lower ones are lower. -/
theorem below_of_alike {ref : Ref → Ref → Prop} {r s : Ref} (hlevel : level' s = level r)
    (href : ∀ c d, ref c d → c < heap.size → level' d = level c) {items : List Draft}
    {xs ys : List Value} (hitems : List.Forall₂ (heap.Denotes level) items xs)
    (hbelow : ∀ child, heap.Child r child → level child < level r)
    (hxs : heap.children r = xs) (hys : heap'.children s = ys)
    (halike : List.Forall₂ (Value.Alike ref) xs ys) (child : Ref) (hchild : heap'.Child s child) :
    level' child < level' s := by
  obtain ⟨part', hpart', hsome'⟩ := hchild
  obtain ⟨part, hpart, hparts⟩ := exists_of_mem_forall₂ halike (hys ▸ hpart')
  obtain ⟨item, -, hitem⟩ := exists_of_mem_forall₂ hitems hpart
  obtain ⟨c, hsome, hc⟩ := hparts.symm.exists_of_ref? hsome'
  rw [href c child hc (hitem.lt hsome), hlevel]
  exact hbelow c ⟨part, hxs ▸ hpart, hsome⟩

/-- **A value alike to one that stands for a draft** stands for it too, if containers
that correspond are at the same level. -/
theorem of_alike {ref : Ref → Ref → Prop}
    (href : ∀ r s, ref r s → r < heap.size → s < heap'.size ∧ level' s = level r ∧
      Container.Alike ref (heap.fetch r) (heap'.fetch s))
    (draft : Draft) {v w : Value} (hvw : Value.Alike ref v w) (h : heap.Denotes level draft v) :
    heap'.Denotes level' draft w := by
  have hsame : ∀ c d, ref c d → c < heap.size → level' d = level c :=
    fun c d hcd hlt => (href c d hcd hlt).2.1
  cases draft with
  | array items =>
    obtain _ | _ | _ | _ | _ | @⟨_, r, values, hlt, hbelow, hfetch, hitems⟩ := h
    cases hvw with
    | scalar hnone => cases hnone
    | @array _ s hrs =>
      obtain ⟨hlt', hlevel, halike⟩ := href r s hrs hlt
      rw [hfetch] at halike
      generalize hfetch' : heap'.fetch s = contents at halike
      obtain ⟨hvalues⟩ := halike
      refine .array hlt' ?_ hfetch' (forall₂_comp_of_mem hitems hvalues
        fun item hmem b c hb hbc => of_alike href item hbc hb)
      refine below_of_alike hlevel hsame hitems hbelow ?_ ?_ hvalues
      · rw [Heap.children, hfetch, Container.children]
      · rw [Heap.children, hfetch', Container.children]
  | object members =>
    obtain _ | _ | _ | _ | _ | _ | @⟨_, r, fields, hlt, hbelow, hfetch, hkeys, hmembers⟩ := h
    cases hvw with
    | scalar hnone => cases hnone
    | @object _ s hrs =>
      obtain ⟨hlt', hlevel, halike⟩ := href r s hrs hlt
      rw [hfetch] at halike
      generalize hfetch' : heap'.fetch s = contents at halike
      have hvalues := halike.children
      obtain _ | ⟨hentries⟩ := halike
      refine .object hlt' ?_ hfetch' (hkeys.trans hentries.keys_eq) (forall₂_comp_of_mem hmembers
        hvalues fun member hmem b c hb hbc => of_alike href member hbc hb)
      refine below_of_alike hlevel hsame hmembers hbelow ?_ ?_ hvalues
      · rw [Heap.children, hfetch, Container.children]
      · rw [Heap.children, hfetch', Container.children]
  | _ =>
    cases h
    cases hvw
    constructor
termination_by sizeOf draft
decreasing_by
  · have := List.sizeOf_lt_of_mem hmem
    subst_vars
    simp
    omega
  · obtain ⟨⟨name, part⟩, hmember, rfl⟩ := List.mem_map.1 hmem
    have := List.sizeOf_lt_of_mem hmember
    subst_vars
    simp at this ⊢
    omega

/-! ### Parts of a draft and parts of its value -/

variable {draft : Draft} {value : Value}

theorem null_iff (h : heap.Denotes level draft value) : value = .null ↔ draft = .null := by
  cases h <;> simp

/-- Only what stands for a text is a text. -/
theorem string_iff (h : heap.Denotes level draft value) (text : String) :
    value = .string text ↔ draft = .string text := by
  cases h <;> simp

/-- The items of an array stand for those of the draft, and lie lower. -/
theorem items {items : List Draft} {ref : Ref}
    (h : heap.Denotes level (.array items) (.array ref)) :
    List.Forall₂ (heap.Denotes level) items (heap.items ref) ∧
      ∀ part ∈ heap.items ref, ∀ child, part.ref? = some child → level child < level ref := by
  obtain _ | _ | _ | _ | _ | ⟨-, hbelow, hfetch, hitems⟩ := h
  have hread : heap.items ref = heap.children ref := by
    rw [Heap.items, Heap.children, hfetch, Container.items, Container.children]
  rw [hread]
  refine ⟨?_, fun part hpart child hchild => hbelow child ⟨part, hpart, hchild⟩⟩
  rwa [Heap.children, hfetch, Container.children]

theorem nodup_keys {members : List (String × Draft)}
    (h : heap.Denotes level (.object members) value) : (Entries.keys members).Nodup := by
  cases h with
  | object _ _ _ hkeys _ => exact hkeys ▸ OrderedMap.nodup _

/-- The fields of an object and the members of the draft are side by side. -/
theorem alongside {members : List (String × Draft)} {ref : Ref}
    (h : heap.Denotes level (.object members) (.object ref)) :
    Entries.Alongside (heap.Denotes level) members (heap.fields ref).entries := by
  obtain _ | _ | _ | _ | _ | _ | ⟨-, -, hfetch, hkeys, hmembers⟩ := h
  rw [Heap.fields, hfetch]
  exact .of_keys_eq hkeys hmembers

/-- The fields of an object have the names of the members of the draft. -/
theorem keys_eq {members : List (String × Draft)} {ref : Ref}
    (h : heap.Denotes level (.object members) (.object ref)) :
    (heap.fields ref).keys = Entries.keys members :=
  h.alongside.keys_eq.symm

/-- The fields of an object stand for the members of the draft, and lie lower. -/
theorem field {members : List (String × Draft)} {ref : Ref}
    (h : heap.Denotes level (.object members) (.object ref)) (name : String) :
    heap.Denotes level (Draft.member members name) (heap.fieldOf ref name) ∧
      ∀ child, (heap.fieldOf ref name).ref? = some child → level child < level ref := by
  constructor
  · have hget := h.alongside.get?_rel name
    unfold Draft.member Heap.fieldOf OrderedMap.get?
    generalize Entries.get? members name = member at hget ⊢
    generalize (heap.fields ref).entries.get? name = part at hget ⊢
    cases hget with
    | some hpart => exact hpart
    | none => exact .null
  · obtain _ | _ | _ | _ | _ | _ | ⟨-, hbelow, -, -, -⟩ := h
    intro child hchild
    unfold Heap.fieldOf at hchild
    cases hget : (heap.fields ref).get? name with
    | none => rw [hget] at hchild; cases hchild
    | some part =>
      rw [hget] at hchild
      exact hbelow child ⟨part, Heap.mem_children_of_get? hget, hchild⟩

/-! ### What a value for a draft leads to -/

/-- What the container of a value for a draft holds stands for drafts. -/
theorem exists_of_mem_children (h : heap.Denotes level draft value) {ref : Ref}
    (href : value.ref? = some ref) {part : Value} (hpart : part ∈ heap.children ref) :
    ∃ inner, heap.Denotes level inner part := by
  cases h with
  | array _ _ hfetch hitems =>
    cases href
    rw [children, hfetch] at hpart
    obtain ⟨item, -, hitem⟩ := exists_of_mem_forall₂ hitems hpart
    exact ⟨item, hitem⟩
  | object _ _ hfetch _ hmembers =>
    cases href
    rw [children, hfetch] at hpart
    obtain ⟨member, -, hmember⟩ := exists_of_mem_forall₂ hmembers hpart
    exact ⟨member, hmember⟩
  | _ => cases href

theorem level_lt_of_child (h : heap.Denotes level draft value) {ref child : Ref}
    (href : value.ref? = some ref) (hchild : heap.Child ref child) : level child < level ref := by
  cases h with
  | array _ hbelow _ _ => cases href; exact hbelow child hchild
  | object _ hbelow _ _ _ => cases href; exact hbelow child hchild
  | _ => cases href

/-- Every container that a value for a draft leads to is that of a value for a draft, and
lies no higher than the container of the whole. -/
theorem exists_of_reachable (h : heap.Denotes level draft value) {ref : Ref}
    (hreach : heap.Reachable value ref) :
    (∃ inner part, part.ref? = some ref ∧ heap.Denotes level inner part) ∧
      ∀ root, value.ref? = some root → level ref ≤ level root := by
  induction hreach with
  | root hroot =>
    refine ⟨⟨draft, value, hroot, h⟩, fun root hroot' => ?_⟩
    rw [Option.some.inj (hroot.symm.trans hroot')]
  | child _ hchild ih =>
    obtain ⟨⟨inner, part, href, hpart⟩, hle⟩ := ih
    refine ⟨?_, fun root hroot =>
      Nat.le_trans (Nat.le_of_lt (hpart.level_lt_of_child href hchild)) (hle root hroot)⟩
    obtain ⟨next, hnext, hsome⟩ := hchild
    obtain ⟨inner', hinner'⟩ := hpart.exists_of_mem_children href hnext
    exact ⟨inner', next, hsome, hinner'⟩

theorem holds (h : heap.Denotes level draft value) : heap.Holds value := by
  intro ref hreach
  obtain ⟨⟨_, _, href, hpart⟩, -⟩ := h.exists_of_reachable hreach
  exact hpart.lt href

/-- **A value for a draft does not contain itself.** -/
theorem acyclic (h : heap.Denotes level draft value) : heap.Acyclic value := by
  intro ref hreach part hpart hback
  obtain ⟨⟨_, whole, href, hwhole⟩, -⟩ := h.exists_of_reachable hreach
  obtain ⟨inner, hinner⟩ := hwhole.exists_of_mem_children href hpart
  -- The part has a container that lies lower than the one it leads back to.
  cases hroot : part.ref? with
  | none => exact not_reachable_of_ref?_none hroot ref hback
  | some root =>
    exact Nat.not_le.2 (hwhole.level_lt_of_child href ⟨part, hpart, hroot⟩)
      ((hinner.exists_of_reachable hback).2 root hroot)

end Denotes

/-! ## Growing -/

/-- A heap has grown, and what was there is as it was. -/
structure Extends (heap heap' : Heap) : Prop where
  size_le : heap.size ≤ heap'.size
  fetch_eq : ∀ ref, ref < heap.size → heap'.fetch ref = heap.fetch ref

namespace Extends

theorem refl (heap : Heap) : heap.Extends heap := ⟨Nat.le_refl _, fun _ _ => rfl⟩

theorem trans {heap'' : Heap} (h : heap.Extends heap') (h' : heap'.Extends heap'') :
    heap.Extends heap'' where
  size_le := Nat.le_trans h.size_le h'.size_le
  fetch_eq := fun ref hlt => by
    rw [h'.fetch_eq ref (Nat.lt_of_lt_of_le hlt h.size_le), h.fetch_eq ref hlt]

theorem allocate (heap : Heap) (contents : Container) :
    heap.Extends (allocate contents heap).2 where
  size_le := by rw [size_allocate]; exact Nat.le_succ _
  fetch_eq := fun ref hlt => by rw [fetch_allocate, if_neg (Nat.ne_of_lt hlt)]

end Extends

/-- What stands for a draft goes on to do so as the heap grows. -/
theorem Denotes.mono (hextends : heap.Extends heap') {draft : Draft} {value : Value}
    (h : heap.Denotes level draft value) : heap'.Denotes level draft value := by
  have hself : Value.Alike Eq value value := .refl fun _ _ => rfl
  refine of_alike ?_ draft hself h
  rintro r _ rfl hlt
  rw [hextends.fetch_eq r hlt]
  exact ⟨Nat.lt_of_lt_of_le hlt hextends.size_le, rfl, .refl fun _ _ _ _ => rfl⟩

/-- A new container holds what was there before it. -/
theorem denotes_allocate (contents : Container) {drafts : List Draft} {values : List Value}
    (hvalues : List.Forall₂ (heap.Denotes id) drafts values)
    (hcontents : contents.children = values) :
    let heap' := (allocate contents heap).2
    heap.size < heap'.size ∧ heap'.fetch heap.size = contents ∧
      (∀ child, heap'.Child heap.size child → child < heap.size) ∧
      List.Forall₂ (heap'.Denotes id) drafts values := by
  intro heap'
  have hfetch : heap'.fetch heap.size = contents := by rw [fetch_allocate, if_pos rfl]
  refine ⟨by rw [size_allocate]; exact Nat.lt_succ_self _, hfetch, ?_,
    hvalues.imp fun _ _ h => h.mono (.allocate heap contents)⟩
  rintro child ⟨part, hpart, hchild⟩
  rw [children, hfetch, hcontents] at hpart
  obtain ⟨draft, -, hdenotes⟩ := exists_of_mem_forall₂ hvalues hpart
  exact hdenotes.lt hchild

end Heap

/-! ## Making values -/

namespace HeapM

/-- Whatever the heap, a computation only adds to it, and comes to a value that stands for
the draft. -/
def Makes (m : HeapM Value) (draft : Draft) : Prop :=
  ∀ heap, heap.Extends (m heap).2 ∧ (m heap).2.Denotes id draft (m heap).1

/-- Whatever the heap, a computation only adds to it, and comes to values that stand for the
drafts, in order. -/
def MakesAll (m : HeapM (List Value)) (drafts : List Draft) : Prop :=
  ∀ heap, heap.Extends (m heap).2 ∧ List.Forall₂ ((m heap).2.Denotes id) drafts (m heap).1

/-- Whatever the heap, a computation only adds to it, and comes to values that stand for the
drafts under the same names, in order. -/
def MakesEntries (m : HeapM (List (String × Value))) (members : List (String × Draft)) : Prop :=
  ∀ heap, heap.Extends (m heap).2 ∧
    Entries.Alongside ((m heap).2.Denotes id) members (m heap).1

variable {m : HeapM Value} {draft : Draft}

/-- What is there needs no heap. -/
theorem Makes.pure {value : Value} (h : ∀ heap : Heap, heap.Denotes id draft value) :
    Makes (pure value) draft :=
  fun heap => ⟨.refl heap, h heap⟩

theorem makes_newFunction (callable : Callable) : Makes (Heap.newFunction callable) .function :=
  fun _ => ⟨⟨Nat.le_refl _, fun _ _ => rfl⟩, .function _⟩

theorem MakesAll.nil : MakesAll (pure []) [] := fun heap => ⟨.refl heap, .nil⟩

theorem MakesAll.cons {ms : HeapM (List Value)} {drafts : List Draft} (h : Makes m draft)
    (hs : MakesAll ms drafts) : MakesAll (do return (← m) :: (← ms)) (draft :: drafts) := by
  intro heap
  obtain ⟨hfirst, hdraft⟩ := h heap
  obtain ⟨hrest, hdrafts⟩ := hs (m heap).2
  exact ⟨hfirst.trans hrest, .cons (hdraft.mono hrest) hdrafts⟩

theorem MakesEntries.nil : MakesEntries (pure []) [] := fun heap => ⟨.refl heap, .nil⟩

theorem MakesEntries.cons {ms : HeapM (List (String × Value))} {members : List (String × Draft)}
    {name : String} (h : Makes m draft) (hs : MakesEntries ms members) :
    MakesEntries (do return (name, ← m) :: (← ms)) ((name, draft) :: members) := by
  intro heap
  obtain ⟨hfirst, hdraft⟩ := h heap
  obtain ⟨hrest, hmembers⟩ := hs (m heap).2
  exact ⟨hfirst.trans hrest, .cons ⟨rfl, hdraft.mono hrest⟩ hmembers⟩

/-- A new array of values that have been made. -/
theorem Makes.array {ms : HeapM (List Value)} {drafts : List Draft} (h : MakesAll ms drafts) :
    Makes (do Heap.newArray (← ms)) (.array drafts) := by
  intro heap
  obtain ⟨hextends, hdrafts⟩ := h heap
  obtain ⟨hlt, hfetch, hbelow, hvalues⟩ :=
    Heap.denotes_allocate (.array (ms heap).1) hdrafts rfl
  exact ⟨hextends.trans (.allocate _ _), .array hlt hbelow hfetch hvalues⟩

/-- A new object of values that have been made. -/
theorem Makes.object {ms : HeapM (List (String × Value))} {members : List (String × Draft)}
    (h : MakesEntries ms members) :
    Makes (do Heap.newObject (.ofList (← ms))) (.object (Entries.collect members)) := by
  intro heap
  obtain ⟨hextends, hmembers⟩ := h heap
  have hcollected := hmembers.collect
  obtain ⟨hlt, hfetch, hbelow, hvalues⟩ :=
    Heap.denotes_allocate (.object (.ofList (ms heap).1))
      (List.forall₂_map_left_iff.2 (List.forall₂_map_right_iff.2
        (hcollected.imp fun _ _ h => h.2))) rfl
  exact ⟨hextends.trans (.allocate _ _), .object hlt hbelow hfetch hcollected.keys_eq hvalues⟩

mutual

/-- **The value of a document stands for the draft of the document.** -/
theorem makes_ofJson (json : Json) : Makes (Value.ofJson json) (Draft.ofJson json) := by
  cases json with
  | null => exact .pure fun _ => .null
  | bool b => exact .pure fun _ => .bool b
  | number n => exact .pure fun _ => .number n.toFloat
  | string s => exact .pure fun _ => .string s
  | array items => exact .array (makes_ofItems items)
  | object members => exact .object (makes_ofMembers members)

theorem makes_ofItems (items : List Json) :
    MakesAll (Value.ofItems items) (Draft.ofItems items) := by
  cases items with
  | nil => exact .nil
  | cons item rest => exact .cons (makes_ofJson item) (makes_ofItems rest)

theorem makes_ofMembers (members : List (String × Json)) :
    MakesEntries (Value.ofMembers members) (Draft.ofMembers members) := by
  cases members with
  | nil => exact .nil
  | cons member rest =>
    obtain ⟨name, json⟩ := member
    exact .cons (makes_ofJson json) (makes_ofMembers rest)

end

end HeapM

end Conform
