import Mathlib.Data.List.Forall2
import Conform.Proofs.Definition.Readable

/-!
# The order of keywords

A definition is read from an object member by member, and the first member that cannot be
read ends the reading.  What a member sets does not depend on what has been set before it,
and two members set different arguments of the node, unless they are two names of one
keyword; and then whichever comes second cannot be read.  So the members may stand in any
order, at all places of a document where definitions are expected, and so may the members of
bounds: the same definition is read, or none is, though perhaps for another fault.

## Main definitions

* `Setting`, `Node.set`: what a member sets in a node.
* `Keyword.setting`: what is set by an argument.
* `Json.Reordered`: documents that differ in the order of keywords alone.

## Main results

* `Entries.foldlM_perm`: steps for different names may be taken in any order.
* `Definition.nodeOfMember_eq_ok_iff`: a member is read by itself.
* `Definition.ofJson_reordered`: the order of keywords does not matter.
-/

namespace Conform

/-! ## Attempts that succeed alike -/

/-- Two attempts come to the same, or fail both. -/
def SameSuccess {ε α : Type} (x y : Except ε α) : Prop := ∀ a, x = .ok a ↔ y = .ok a

namespace SameSuccess

variable {ε α β : Type} {x y : Except ε α}

theorem refl (x : Except ε α) : SameSuccess x x := fun _ => Iff.rfl

theorem bind {f g : α → Except ε β} (h : SameSuccess x y)
    (hfg : ∀ a, x = .ok a → SameSuccess (f a) (g a)) : SameSuccess (x >>= f) (y >>= g) := by
  intro b
  constructor
  · intro hx
    obtain ⟨a, ha, hb⟩ := Definition.bind_eq_ok hx
    rw [(h a).1 ha]
    exact (hfg a ha b).1 hb
  · intro hy
    obtain ⟨a, ha, hb⟩ := Definition.bind_eq_ok hy
    have hx := (h a).2 ha
    rw [hx]
    exact (hfg a hx b).2 hb

theorem map (h : SameSuccess x y) (f : α → β) : SameSuccess (f <$> x) (f <$> y) := by
  rw [← bind_pure_comp, ← bind_pure_comp]
  exact h.bind fun _ _ => .refl _

/-- Attempts succeed alike when both come to the same result, or to a fault each. -/
theorem cases (h : SameSuccess x y) :
    (∃ a, x = .ok a ∧ y = .ok a) ∨ ∃ e e', x = .error e ∧ y = .error e' := by
  cases hx : x with
  | ok a => exact .inl ⟨a, rfl, (h a).1 hx⟩
  | error e =>
    cases hy : y with
    | ok a => rw [(h a).2 hy] at hx; cases hx
    | error e' => exact .inr ⟨e, e', rfl, rfl⟩

end SameSuccess

/-! ## Steps in any order -/

section Steps

variable {ε α β : Type} {f : β → String × α → Except ε β}

/-- **Steps for different names may be taken in any order**, if two of them may. -/
theorem Entries.foldlM_perm (hswap : ∀ b x y, x.1 ≠ y.1 → ∀ c,
      (do f (← f b x) y) = Except.ok c → (do f (← f b y) x) = Except.ok c)
    {xs ys : Entries α} (hperm : xs.Perm ys) (hnodup : xs.keys.Nodup) (b : β) :
    SameSuccess (xs.foldlM f b) (ys.foldlM f b) := by
  -- One direction is enough, since the order may be changed back.
  suffices hone : ∀ {xs ys : Entries α}, xs.Perm ys → xs.keys.Nodup → ∀ b c,
      xs.foldlM f b = .ok c → ys.foldlM f b = .ok c from
    fun c => ⟨hone hperm hnodup b c, hone hperm.symm ((hperm.map Prod.fst).nodup_iff.1 hnodup) b c⟩
  intro xs ys hperm
  induction hperm with
  | nil => exact fun _ _ _ h => h
  | cons x _ ih =>
    intro hnodup b c h
    rw [List.foldlM_cons] at h ⊢
    obtain ⟨next, hnext, h⟩ := Definition.bind_eq_ok h
    rw [hnext]
    exact ih (List.nodup_cons.1 hnodup).2 next c h
  | swap x y rest =>
    intro hnodup b c h
    rw [List.foldlM_cons] at h ⊢
    obtain ⟨middle, hmiddle, h⟩ := Definition.bind_eq_ok h
    rw [List.foldlM_cons] at h
    obtain ⟨last, hlast, h⟩ := Definition.bind_eq_ok h
    have hne : y.1 ≠ x.1 := fun heq =>
      (List.nodup_cons.1 hnodup).1 (heq ▸ List.mem_cons_self ..)
    have hboth : (do f (← f b y) x) = Except.ok last := by
      rw [hmiddle]
      exact hlast
    obtain ⟨other, hother, hlast'⟩ := Definition.bind_eq_ok (hswap b y x hne last hboth)
    rw [hother]
    change List.foldlM f other (y :: rest) = .ok c
    rw [List.foldlM_cons, hlast']
    exact h
  | trans hxy _ ih ih' =>
    intro hnodup b c h
    exact ih' ((hxy.map Prod.fst).nodup_iff.1 hnodup) b c (ih hnodup b c h)

/-- Steps that succeed alike one by one do so one after the other. -/
theorem foldlM_sameSuccess {γ : Type} {g : β → γ → Except ε β} {h : β → γ → Except ε β}
    {xs ys : List γ} (hxs : List.Forall₂ (fun x y => ∀ b, SameSuccess (g b x) (h b y)) xs ys)
    (b : β) : SameSuccess (xs.foldlM g b) (ys.foldlM h b) := by
  induction hxs generalizing b with
  | nil => exact .refl _
  | cons hxy _ ih =>
    rw [List.foldlM_cons, List.foldlM_cons]
    exact (hxy b).bind fun next _ => ih next

end Steps

/-! ## Settings -/

/-- What a member of an object sets in a node. -/
inductive Setting where
  | optional (b : Bool)
  | required (b : Bool)
  | fallback (json : Json)
  | kind (type : TypeName)
  | schema (fields : List (String × Definition))
  | items (definition : Definition)
  | allowed (documents : List Json)
  | bounds (bounds : Bounds)
  | either (alternatives : List Definition)
  | strict (b : Bool)
  | require (names : List String)
  | restrict (names : List String)

/-- The keyword whose argument is set, under the first of its names. -/
def Setting.keyword : Setting → Keyword
  | .optional _ => .optional
  | .required _ => .required
  | .fallback _ => .default
  | .kind _ => .type
  | .schema _ => .schema
  | .items _ => .items
  | .allowed _ => .oneOf
  | .bounds _ => .bounds
  | .either _ => .either
  | .strict _ => .strict
  | .require _ => .require
  | .restrict _ => .restrict

/-- The node in which an argument is set. -/
def Node.set (node : Node Definition) : Setting → Node Definition
  | .optional b => { node with optional := b }
  | .required b => { node with required := some b }
  | .fallback json => { node with fallback := some (.literal json) }
  | .kind type => { node with kind := some type }
  | .schema fields => { node with schema := some (.declared fields) }
  | .items definition => { node with items := some definition }
  | .allowed documents => { node with allowed := some documents }
  | .bounds bounds => { node with bounds := some bounds }
  | .either alternatives => { node with either := some alternatives }
  | .strict b => { node with strict := some b }
  | .require names => { node with require := some names }
  | .restrict names => { node with restrict := some names }

/-- Arguments of different keywords are set in any order. -/
theorem Node.set_comm (node : Node Definition) {s t : Setting} (h : s.keyword ≠ t.keyword) :
    (node.set s).set t = (node.set t).set s := by
  cases s <;> cases t <;> first | rfl | exact absurd rfl h

/-- The first name of a keyword. -/
def Keyword.first : Keyword → Keyword
  | .properties => .schema
  | .enumeration => .oneOf
  | keyword => keyword

/-- What is set by the argument of a keyword. -/
def Keyword.setting (keyword : Keyword) (argument : Json) : Except DefinitionError Setting :=
  match keyword with
  | .optional => .optional <$> Definition.boolArgument keyword.text argument
  | .required => .required <$> Definition.boolArgument keyword.text argument
  | .default => .ok (.fallback argument)
  | .type => .kind <$> Definition.typeArgument keyword.text argument
  | .schema | .properties => .schema <$> Definition.fieldsOfJson keyword.text argument
  | .items => .items <$> Definition.ofJson argument
  | .oneOf | .enumeration => .allowed <$> Definition.allowedArgument keyword.text argument
  | .bounds => .bounds <$> Definition.boundsArgument keyword.text argument
  | .either => .either <$> Definition.alternativesOfJson keyword.text argument
  | .strict => .strict <$> Definition.boolArgument keyword.text argument
  | .require => .require <$> Definition.namesArgument keyword.text argument
  | .restrict => .restrict <$> Definition.namesArgument keyword.text argument
  | .custom => .error (.invalidArgument keyword.text "transforms cannot be expressed in JSON")

theorem map_eq_ok {ε α β : Type} {x : Except ε α} {f : α → β} {b : β} (h : f <$> x = .ok b) :
    ∃ a, x = .ok a ∧ f a = b := by
  cases x with
  | ok a => exact ⟨a, rfl, Except.ok.inj h⟩
  | error e => cases h

/-- A keyword sets its own argument. -/
theorem Keyword.keyword_setting {keyword : Keyword} {argument : Json} {setting : Setting}
    (h : keyword.setting argument = .ok setting) : setting.keyword = keyword.first := by
  cases keyword with
  | default => cases h; rfl
  | custom => cases h
  | _ => obtain ⟨_, -, rfl⟩ := map_eq_ok h; rfl

/-! ## Reading one member -/

/-- Whether a keyword may still be read: fields and documents are declared under one name. -/
structure Node.Free (node : Node Definition) (keyword : Keyword) : Prop where
  fields : keyword.first = .schema → node.schema = none
  documents : keyword.first = .oneOf → node.allowed = none

namespace Node

variable {node : Node Definition} {keyword : Keyword} {setting : Setting}

/-- Setting the argument of another keyword leaves a keyword free. -/
theorem free_set_iff (hne : setting.keyword ≠ keyword.first) :
    (node.set setting).Free keyword ↔ node.Free keyword := by
  have hfields : keyword.first = .schema → (node.set setting).schema = node.schema := by
    intro hfirst
    cases setting with
    | schema fields => exact absurd hfirst.symm hne
    | _ => rfl
  have hdocuments : keyword.first = .oneOf → (node.set setting).allowed = node.allowed := by
    intro hfirst
    cases setting with
    | allowed documents => exact absurd hfirst.symm hne
    | _ => rfl
  constructor
  · exact fun h => ⟨fun hfirst => hfields hfirst ▸ h.fields hfirst,
      fun hfirst => hdocuments hfirst ▸ h.documents hfirst⟩
  · exact fun h => ⟨fun hfirst => (hfields hfirst).trans (h.fields hfirst),
      fun hfirst => (hdocuments hfirst).trans (h.documents hfirst)⟩

/-- A keyword that has been set under one name is not free under another. -/
theorem not_free_set {other : Keyword} (hsetting : setting.keyword = other.first)
    (hfirst : keyword.first = other.first) (hne : keyword ≠ other) :
    ¬ (node.set setting).Free other := by
  intro hfree
  have hnames : other.first = .schema ∨ other.first = .oneOf := by
    cases keyword <;> cases other <;> simp [Keyword.first] at hfirst hne ⊢
  cases setting with
  | schema fields => cases hfree.fields hsetting.symm
  | allowed documents => cases hfree.documents hsetting.symm
  | _ => rcases hnames with h | h <;> rw [h] at hsetting <;> cases hsetting

end Node

namespace Definition

variable {node next : Node Definition} {argument : Json}

/-- A keyword with one name is read whatever has been set. -/
theorem nodeOfMember_iff_of_setting {α : Type} {keyword : Keyword} {read : Except DefinitionError α}
    {setting : α → Setting} (hread : keyword.setting argument = setting <$> read)
    (hnode : nodeOfMembers node [(keyword.text, argument)] =
      (do let a ← read; Except.ok (node.set (setting a)))) :
    nodeOfMembers node [(keyword.text, argument)] = .ok next ↔
      ∃ s, keyword.setting argument = .ok s ∧ next = node.set s := by
  rw [hread, hnode]
  cases read with
  | ok a =>
    constructor
    · rintro ⟨⟩
      exact ⟨setting a, rfl, rfl⟩
    · rintro ⟨_, ⟨⟩, rfl⟩
      rfl
  | error fault =>
    constructor
    · rintro ⟨⟩
    · rintro ⟨_, ⟨⟩, -⟩

/-- **A member is read by itself**, unless the keyword has been read under its other name. -/
theorem nodeOfMember_eq_ok_iff {keyword : Keyword} :
    nodeOfMembers node [(keyword.text, argument)] = .ok next ↔
      node.Free keyword ∧ ∃ setting, keyword.setting argument = .ok setting ∧
        next = node.set setting := by
  have hread : ∀ {keyword : Keyword} {α : Type} {read : Except DefinitionError α}
      {setting : α → Setting}, keyword.first ≠ .schema → keyword.first ≠ .oneOf →
      keyword.setting argument = setting <$> read →
      nodeOfMembers node [(keyword.text, argument)] =
        (do let a ← read; Except.ok (node.set (setting a))) →
      (nodeOfMembers node [(keyword.text, argument)] = .ok next ↔
        node.Free keyword ∧ ∃ s, keyword.setting argument = .ok s ∧ next = node.set s) := by
    intro keyword α read setting hfields hdocuments hread hnode
    rw [nodeOfMember_iff_of_setting hread hnode, and_iff_right]
    exact ⟨fun h => absurd h hfields, fun h => absurd h hdocuments⟩
  cases keyword with
  | optional | required | type | items | bounds | either | strict | require | restrict =>
    exact hread (by decide) (by decide) rfl rfl
  | default =>
    exact @hread .default _ (.ok argument) .fallback (by decide) (by decide) rfl rfl
  | custom => exact iff_of_false nofun (by rintro ⟨-, _, ⟨⟩, -⟩)
  | schema | properties =>
    by_cases hunset : node.schema = none
    · rw [nodeOfMember_iff_of_setting rfl, and_iff_right ⟨fun _ => hunset, nofun⟩]
      rw [nodeOfMembers, Keyword.ofText?_text]
      simp only [hunset]
      cases fieldsOfJson _ argument <;> rfl
    · refine iff_of_false (fun h => ?_) fun h => hunset (h.1.fields rfl)
      rw [nodeOfMembers, Keyword.ofText?_text] at h
      simp only [Option.isSome_iff_ne_none.2 hunset] at h
      cases h
  | oneOf | enumeration =>
    by_cases hunset : node.allowed = none
    · rw [nodeOfMember_iff_of_setting rfl, and_iff_right ⟨nofun, fun _ => hunset⟩]
      rw [nodeOfMembers, Keyword.ofText?_text]
      simp only [hunset]
      cases allowedArgument _ argument <;> rfl
    · refine iff_of_false (fun h => ?_) fun h => hunset (h.1.documents rfl)
      rw [nodeOfMembers, Keyword.ofText?_text] at h
      simp only [Option.isSome_iff_ne_none.2 hunset] at h
      cases h

/-- A member whose name is no keyword cannot be read. -/
theorem nodeOfMember_ne_ok {name : String} (h : Keyword.ofText? name = none) :
    nodeOfMembers node [(name, argument)] ≠ .ok next := by
  rw [nodeOfMembers, h]
  nofun

/-- Members are read one after the other. -/
theorem nodeOfMembers_eq_foldlM (members : List (String × Json)) (node : Node Definition) :
    nodeOfMembers node members =
      members.foldlM (fun node member => nodeOfMembers node [member]) node := by
  induction members generalizing node with
  | nil => rfl
  | cons member rest ih =>
    obtain ⟨name, argument⟩ := member
    have hdone : ∀ next, (Except.ok next >>= fun next : Node Definition =>
        nodeOfMembers next rest) = nodeOfMembers next rest := fun _ => rfl
    rw [List.foldlM_cons, ← funext ih, nodeOfMembers, nodeOfMembers]
    cases Keyword.ofText? name with
    | none => rfl
    | some keyword =>
      cases keyword with
      | schema | properties | oneOf | enumeration =>
        simp only
        split
        · rfl
        · simp only [bind_assoc, pure_bind, nodeOfMembers, hdone]
      | custom => rfl
      | _ => simp only [bind_assoc, pure_bind, nodeOfMembers, hdone]

/-- **Two members are read in any order.** -/
theorem nodeOfMember_swap (node : Node Definition) (x y : String × Json) (hne : x.1 ≠ y.1)
    (last : Node Definition)
    (h : (do nodeOfMembers (← nodeOfMembers node [x]) [y]) = Except.ok last) :
    (do nodeOfMembers (← nodeOfMembers node [y]) [x]) = Except.ok last := by
  obtain ⟨name, argument⟩ := x
  obtain ⟨name', argument'⟩ := y
  obtain ⟨middle, hx, hy⟩ := bind_eq_ok h
  cases hkeyword : Keyword.ofText? name with
  | none => exact absurd hx (nodeOfMember_ne_ok hkeyword)
  | some keyword =>
    cases hkeyword' : Keyword.ofText? name' with
    | none => exact absurd hy (nodeOfMember_ne_ok hkeyword')
    | some keyword' =>
      obtain rfl := Keyword.ofText?_eq_some_iff.1 hkeyword
      obtain rfl := Keyword.ofText?_eq_some_iff.1 hkeyword'
      obtain ⟨hfree, s, hs, rfl⟩ := nodeOfMember_eq_ok_iff.1 hx
      obtain ⟨hfree', t, ht, rfl⟩ := nodeOfMember_eq_ok_iff.1 hy
      have hs' := Keyword.keyword_setting hs
      have ht' := Keyword.keyword_setting ht
      -- Two names of one keyword are out, because the second cannot be read.
      have hfirst : keyword.first ≠ keyword'.first := fun heq =>
        Node.not_free_set (hs'.trans heq) heq (fun h => hne (h ▸ rfl)) hfree'
      have hfirst_y := nodeOfMember_eq_ok_iff.2
        ⟨(Node.free_set_iff (hs' ▸ hfirst)).1 hfree', t, ht, rfl⟩
      rw [hfirst_y]
      refine nodeOfMember_eq_ok_iff.2 ⟨(Node.free_set_iff (ht' ▸ hfirst.symm)).2 hfree, s, hs, ?_⟩
      exact Node.set_comm node (by rw [hs', ht']; exact hfirst)

/-! ## Bounds -/

theorem boundMember_eq_ok_iff {bounds next : Bounds} {member : String × Json} :
    boundMember bounds member = .ok next ↔ ∃ (comparator : Comparator) (bound : Float),
      member.1 = comparator.text ∧ member.2.float? = some bound ∧
        next = bounds.set comparator bound := by
  obtain ⟨name, json⟩ := member
  constructor
  · intro h
    obtain ⟨comparator, hcomparator, h⟩ := bind_eq_ok h
    obtain ⟨other, rfl⟩ := exists_comparator_iff.1 ⟨comparator, hcomparator⟩
    rw [Comparator.ofText_text] at hcomparator
    obtain rfl := Except.ok.inj hcomparator
    cases hbound : json.float? with
    | none => simp only [hbound] at h; cases h
    | some bound =>
      simp only [hbound] at h
      cases h
      exact ⟨other, bound, rfl, rfl, rfl⟩
  · rintro ⟨comparator, bound, rfl, hbound, rfl⟩
    simp only [boundMember, Comparator.ofText_text, hbound]
    rfl

/-- Two bounds are read in any order. -/
theorem boundMember_swap (bounds : Bounds) (x y : String × Json) (hne : x.1 ≠ y.1) (last : Bounds)
    (h : (do boundMember (← boundMember bounds x) y) = Except.ok last) :
    (do boundMember (← boundMember bounds y) x) = Except.ok last := by
  obtain ⟨middle, hx, hy⟩ := bind_eq_ok h
  obtain ⟨c, bound, hc, hbound, rfl⟩ := boundMember_eq_ok_iff.1 hx
  obtain ⟨d, bound', hd, hbound', rfl⟩ := boundMember_eq_ok_iff.1 hy
  have hcd : c ≠ d := fun heq => hne (by rw [hc, hd, heq])
  rw [boundMember_eq_ok_iff.2 ⟨d, bound', hd, hbound', rfl⟩]
  refine boundMember_eq_ok_iff.2 ⟨c, bound, hc, hbound, ?_⟩
  cases c <;> cases d <;> first | rfl | exact absurd rfl hcd

end Definition

/-! ## Documents in another order -/

mutual

/-- Documents that differ in the order of keywords and of bounds alone, at any places where
definitions are expected. -/
inductive Json.Reordered : Json → Json → Prop where
  | same (json : Json) : Reordered json json
  | keywords {members inner members' : List (String × Json)} :
      List.Forall₂ Json.ReorderedMember members inner → inner.Perm members' →
      Reordered (.object members) (.object members')

/-- Members with the same name, whose arguments differ in the order of keywords and of
bounds alone. -/
inductive Json.ReorderedMember : String × Json → String × Json → Prop where
  | same (member : String × Json) : ReorderedMember member member
  | fields {keyword : Keyword} {fields fields' : List (String × Json)} :
      keyword = .schema ∨ keyword = .properties → List.Forall₂ Json.ReorderedField fields fields' →
      ReorderedMember (keyword.text, .object fields) (keyword.text, .object fields')
  | items {json json' : Json} : Json.Reordered json json' →
      ReorderedMember (Keyword.items.text, json) (Keyword.items.text, json')
  | either {items items' : List Json} : List.Forall₂ Json.Reordered items items' →
      ReorderedMember (Keyword.either.text, .array items) (Keyword.either.text, .array items')
  | bounds {bounds bounds' : List (String × Json)} : bounds.Perm bounds' →
      ReorderedMember (Keyword.bounds.text, .object bounds) (Keyword.bounds.text, .object bounds')

/-- Fields with the same name, whose definitions differ in the order of keywords and of
bounds alone. -/
inductive Json.ReorderedField : String × Json → String × Json → Prop where
  | field {name : String} {json json' : Json} : Json.Reordered json json' →
      ReorderedField (name, json) (name, json')

end

namespace Definition

/-- Fields are read alike if their definitions are. -/
theorem sameSuccess_fieldsOfMembers {fields fields' : List (String × Json)}
    (h : List.Forall₂ (fun x y => x.1 = y.1 ∧ SameSuccess (ofJson x.2) (ofJson y.2)) fields
      fields') : SameSuccess (fieldsOfMembers fields) (fieldsOfMembers fields') := by
  induction h with
  | nil => exact .refl _
  | @cons x y _ _ hxy _ ih =>
    obtain ⟨name, json⟩ := x
    obtain ⟨_, json'⟩ := y
    obtain ⟨rfl, hjson⟩ := hxy
    rw [fieldsOfMembers, fieldsOfMembers]
    exact hjson.bind fun _ _ => ih.bind fun _ _ => .refl _

/-- Alternatives are read alike if each is. -/
theorem sameSuccess_alternativesOfItems {items items' : List Json}
    (h : List.Forall₂ (fun x y => SameSuccess (ofJson x) (ofJson y)) items items')
    (index : Nat) :
    SameSuccess (alternativesOfItems index items) (alternativesOfItems index items') := by
  induction h generalizing index with
  | nil => exact .refl _
  | @cons x y _ _ hxy _ ih =>
    rw [alternativesOfItems, alternativesOfItems]
    rcases hxy.cases with ⟨alternative, hx, hy⟩ | ⟨fault, fault', hx, hy⟩
    · rw [hx, hy]
      exact (ih (index + 1)).bind fun _ _ => .refl _
    · rw [hx, hy]
      exact fun _ => iff_of_false nofun nofun

/-- **An argument sets the same in another order**, if this is so of the definitions in it. -/
theorem sameSuccess_setting {name name' : String} {argument argument' : Json}
    (h : Json.ReorderedMember (name, argument) (name', argument'))
    (hdistinct : argument.Distinct)
    (hparts : ∀ part part', sizeOf part ≤ sizeOf argument → part.Distinct →
      Json.Reordered part part' → SameSuccess (ofJson part) (ofJson part')) :
    name = name' ∧ ∀ keyword : Keyword, name = keyword.text →
      SameSuccess (keyword.setting argument) (keyword.setting argument') := by
  have hpart : ∀ {keyword : Keyword} {part part' : Json}, keyword.Part argument part →
      Json.Reordered part part' → SameSuccess (ofJson part) (ofJson part') :=
    fun hpart hreordered => hparts _ _ hpart.sizeOf_le (hpart.distinct hdistinct) hreordered
  cases h with
  | same => exact ⟨rfl, fun _ _ => .refl _⟩
  | @fields keyword fields fields' hkeyword hfields =>
    refine ⟨rfl, fun other hother => ?_⟩
    obtain rfl := Keyword.text_injective hother
    have hread : SameSuccess (fieldsOfMembers fields) (fieldsOfMembers fields') := by
      refine sameSuccess_fieldsOfMembers <|
        ((List.forall₂_and_left _ _).2 ⟨fun _ hmem => hmem, hfields⟩).imp ?_
      rintro _ _ ⟨hmem, ⟨hreordered⟩⟩
      exact ⟨rfl, hpart (.field hkeyword hmem) hreordered⟩
    rcases hkeyword with rfl | rfl <;> exact SameSuccess.map hread _
  | items hreordered =>
    refine ⟨rfl, fun other hother => ?_⟩
    obtain rfl := Keyword.text_injective hother
    exact SameSuccess.map (hparts _ _ (Nat.le_refl _) hdistinct hreordered) _
  | @either items items' hitems =>
    refine ⟨rfl, fun other hother => ?_⟩
    obtain rfl := Keyword.text_injective hother
    have hread := sameSuccess_alternativesOfItems
      (((List.forall₂_and_left _ _).2 ⟨fun _ hmem => hmem, hitems⟩).imp fun _ _ hitem =>
        hpart (.alternative hitem.1) hitem.2) 0
    -- An array without items stays one.
    cases hitems with
    | nil => exact .refl _
    | cons => exact SameSuccess.map hread _
  | @bounds bounds bounds' hperm =>
    refine ⟨rfl, fun other hother => ?_⟩
    obtain rfl := Keyword.text_injective hother
    cases hdistinct with
    | object hnodup _ =>
      have hread := Entries.foldlM_perm boundMember_swap hperm hnodup {}
      exact SameSuccess.map hread _

/-- **A document is read alike in another order of keywords.** -/
theorem sameSuccess_ofJson {json json' : Json} (hdistinct : json.Distinct)
    (h : Json.Reordered json json') : SameSuccess (ofJson json) (ofJson json') := by
  induction hsize : sizeOf json using Nat.strongRecOn generalizing json json' with
  | ind size ih =>
  subst hsize
  cases h with
  | same => exact .refl _
  | @keywords members inner members' hinner hperm =>
    cases hdistinct with
    | object hnodup hmembers =>
    -- The arguments are put in another order first, member by member, and then the members.
    have hmember : ∀ member ∈ members, ∀ member', Json.ReorderedMember member member' →
        member.1 = member'.1 ∧ ∀ node,
          SameSuccess (nodeOfMembers node [member]) (nodeOfMembers node [member']) := by
      rintro ⟨name, argument⟩ hmem ⟨name', argument'⟩ hreordered
      have hlt : sizeOf argument < sizeOf (Json.object members) := by
        have := List.sizeOf_lt_of_mem hmem
        simp at this ⊢
        omega
      obtain ⟨rfl, hsetting⟩ := sameSuccess_setting hreordered (hmembers _ hmem)
        fun part part' hle hdistinct hpart =>
          ih _ (Nat.lt_of_le_of_lt hle hlt) hdistinct hpart rfl
      refine ⟨rfl, fun node next => ?_⟩
      cases hkeyword : Keyword.ofText? name with
      | none => exact iff_of_false (nodeOfMember_ne_ok hkeyword) (nodeOfMember_ne_ok hkeyword)
      | some keyword =>
        obtain rfl := Keyword.ofText?_eq_some_iff.1 hkeyword
        rw [nodeOfMember_eq_ok_iff, nodeOfMember_eq_ok_iff]
        simp only [hsetting keyword rfl _]
    have hinner' := ((List.forall₂_and_left _ _).2 ⟨fun _ hmem => hmem, hinner⟩).imp
      fun member member' hboth => hmember member hboth.1 member' hboth.2
    have hkeys : Entries.keys members = Entries.keys inner := by
      refine List.forall₂_eq_eq_eq ▸ ?_
      exact List.forall₂_map_left_iff.2 (List.forall₂_map_right_iff.2
        (hinner'.imp fun _ _ hboth => hboth.1))
    have hread : SameSuccess (nodeOfMembers {} members) (nodeOfMembers {} members') := by
      rw [nodeOfMembers_eq_foldlM, nodeOfMembers_eq_foldlM]
      have hfirst := foldlM_sameSuccess (hinner'.imp fun _ _ hboth => hboth.2) {}
      have hsecond := Entries.foldlM_perm nodeOfMember_swap hperm (hkeys ▸ hnodup) {}
      exact fun last => (hfirst last).trans (hsecond last)
    rw [ofJson, ofJson]
    exact hread.bind fun _ _ => .refl _

/-- **The order in which keywords are written does not matter.**  A document in which the
members of keyword objects and of bounds are put in another order, at any places and depths
where definitions are expected, is read as the same definition, or neither can be read. -/
theorem ofJson_reordered (json json' : Json) (hdistinct : json.Distinct)
    (h : Json.Reordered json json') :
    (∃ definition, ofJson json = .ok definition ∧ ofJson json' = .ok definition) ∨
      ∃ fault fault', ofJson json = .error fault ∧ ofJson json' = .error fault' :=
  (sameSuccess_ofJson hdistinct h).cases

/-- Keywords change places at the root and in an alternative of a field, and so do bounds. -/
theorem ofJson_reordered_nested :
    let one : Json := .number (.integer 1)
    let two : Json := .number (.integer 2)
    let amount : Json := .object
      [("type", .string "number"), ("bounds", .object [("gte", one), ("lt", two)])]
    let amount' : Json := .object
      [("bounds", .object [("lt", two), ("gte", one)]), ("type", .string "number")]
    let json : Json := .object [("strict", .bool true), ("schema", .object
      [("a", .object [("either", .array [.string "string", amount])]), ("b", amount)])]
    let json' : Json := .object [("schema", .object
      [("a", .object [("either", .array [.string "string", amount'])]), ("b", amount)]),
        ("strict", .bool true)]
    json.Distinct ∧ Json.Reordered json json' ∧
      ∃ definition, ofJson json = .ok definition ∧ ofJson json' = .ok definition := by
  intro one two amount amount' json json'
  have hamount : amount.Distinct :=
    .object (by decide) (List.forall_mem_cons.2 ⟨.string _, List.forall_mem_singleton.2
      (.object (by decide) (List.forall_mem_cons.2 ⟨.number _,
        List.forall_mem_singleton.2 (.number _)⟩))⟩)
  have hchoice : (Json.object [("either", .array [.string "string", amount])]).Distinct :=
    .object (by decide) (List.forall_mem_singleton.2 (.array (List.forall_mem_cons.2
      ⟨.string _, List.forall_mem_singleton.2 hamount⟩)))
  have hdistinct : json.Distinct :=
    .object (by decide) (List.forall_mem_cons.2 ⟨.bool _, List.forall_mem_singleton.2
      (.object (by decide) (List.forall_mem_cons.2 ⟨hchoice,
        List.forall_mem_singleton.2 hamount⟩))⟩)
  have hamounts : Json.Reordered amount amount' :=
    .keywords (.cons (.same _) (.cons (.bounds (.swap ..)) .nil)) (.swap ..)
  have hfields : Json.Reordered (.object [("either", .array [.string "string", amount])])
      (.object [("either", .array [.string "string", amount'])]) :=
    .keywords (.cons (.either (.cons (.same _) (.cons hamounts .nil))) .nil) (.refl _)
  have hreordered : Json.Reordered json json' :=
    .keywords (.cons (.same _) (.cons (@Json.ReorderedMember.fields .schema _ _ (.inl rfl)
      (.cons (.field hfields) (.cons (.field (.same _)) .nil))) .nil)) (.swap ..)
  have hread : ∃ definition, ofJson json = .ok definition := ⟨_, rfl⟩
  refine ⟨hdistinct, hreordered,
    (ofJson_reordered json json' hdistinct hreordered).resolve_right ?_⟩
  rintro ⟨fault, _, hfault, -⟩
  obtain ⟨definition, hdefinition⟩ := hread
  rw [hdefinition] at hfault
  cases hfault

end Definition

end Conform
