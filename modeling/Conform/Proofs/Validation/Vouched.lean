import Conform.Proofs.Validation.Conformance
import Conform.Proofs.Validation.Regime

/-!
# What a declared type vouches for

Bounds are for numbers, and fields are for objects.  Where a node declares a type, these
keywords leave it to the type to complain about other values.  But the type complains about
the values that are not of it, and those are the other values only if it is the type that the
keyword is for; after any other type, values that the keyword is not for pass in silence.
Where no type is declared the keywords complain themselves.

Alternatives stand between the type and the fields.  What they make of a value is an object
exactly if the value was, unless they replace it by a transform.

## Main definitions

* `Check.Reaches`: what a keyword is given in a run of the keywords of a node.
* `Check.Silent`: a run that finds nothing to complain about.
* `Definition.KeepsObjects`: definitions whose transform makes objects of objects alone.

## Main results

* `Check.Silent.at_place`: in such a run each keyword finds nothing in what it is given.
* `Check.hasType_reached_of_silent`: for which declared types the keywords for numbers and
  objects are given nothing else.
-/

namespace Conform

variable {σ : Type}

namespace Check

/-! ## Silent runs -/

/-- Some keywords of a node taken in turn. -/
def inTurn (resolved : Resolved) (some : List (Demand σ)) (value : Value) : Check σ Value :=
  some.foldlM (fun value keyword => keyword resolved value) value

/-- What the keyword at a place is given: what the keywords before it leave. -/
def Reaches (host : Host σ) (recurse : Recurse σ) (resolved : Resolved) (value : Value)
    (session : Session σ) (place : Nat) (reached : Value) (between : Session σ) : Prop :=
  inTurn resolved ((keywords host recurse).take place) value session = .ok reached between

/-- A run of the keywords of a node, on a value that is there, that comes to its end and adds
no violations. -/
structure Silent (host : Host σ) (recurse : Recurse σ) (resolved : Resolved) (value : Value)
    (session : Session σ) : Prop where
  present : value ≠ .null
  ends : ∃ result after, demands host recurse resolved value session = .ok result after ∧
    after.context.violations = session.context.violations

/-- The place of `bounds` among the keywords. -/
def placeOfBounds : Nat := 2

/-- The place of `schema` among the keywords. -/
def placeOfSchema : Nat := 4

variable {host : Host σ} {recurse : Recurse σ} {resolved : Resolved} {value reached : Value}
  {session between : Session σ} {place : Nat}

theorem keywords_placeOfBounds : (keywords host recurse)[placeOfBounds]? = some bounds := rfl

theorem keywords_placeOfSchema :
    (keywords host recurse)[placeOfSchema]? = some (schema host recurse) := rfl

theorem bind_ok {α β : Type} {m : Check σ α} {f : α → Check σ β} {b : β}
    {session after : Session σ} (h : (m >>= f) session = .ok b after) :
    ∃ a middle, m session = .ok a middle ∧ f a middle = .ok b after := by
  simp only [Bind.bind, EStateM.bind] at h
  cases hm : m session with
  | ok a middle => rw [hm] at h; exact ⟨a, middle, rfl, h⟩
  | error fault middle => rw [hm] at h; cases h

/-- Violations are only added. -/
theorem Restores.prefix_violations {α : Type} {m : Check σ α} (hm : Restores m) {a : α}
    {session after : Session σ} (h : m session = .ok a after) :
    session.context.violations <+: after.context.violations := by
  obtain ⟨added, hcontext, -⟩ := hm session
  rw [h, final_ok] at hcontext
  exact ⟨added, by rw [hcontext, Context.violations_holding]⟩

/-- The keywords up to a place, the keyword there, and the rest. -/
theorem inTurn_split {keyword : Demand σ}
    (hplace : (keywords host recurse)[place]? = some keyword) :
    inTurn resolved (keywords host recurse) value =
      inTurn resolved ((keywords host recurse).take place) value >>= fun v =>
        keyword resolved v >>= inTurn resolved ((keywords host recurse).drop (place + 1)) := by
  have hdrop : (keywords host recurse).drop place =
      keyword :: (keywords host recurse).drop (place + 1) := by
    obtain ⟨hlt, hget⟩ := List.getElem?_eq_some_iff.1 hplace
    rw [List.drop_eq_getElem_cons hlt, hget]
  conv_lhs => rw [← List.take_append_drop place (keywords host recurse), hdrop]
  simp only [inTurn, List.foldlM_append, List.foldlM_cons]
  rfl

theorem restores_inTurn (hrecurse : ∀ value definition, Restores (recurse value definition))
    {some : List (Demand σ)} (hsubset : some ⊆ keywords host recurse) (value : Value) :
    Restores (inTurn resolved some value) :=
  .foldlM (fun v _ hkeyword => .keyword _ v hrecurse (hsubset hkeyword)) value

/-- The keywords up to one more. -/
theorem Reaches.succ {keyword : Demand σ} {passed : Value} {after : Session σ}
    (hreaches : Reaches host recurse resolved value session place reached between)
    (hplace : (keywords host recurse)[place]? = some keyword)
    (hkeyword : keyword resolved reached between = .ok passed after) :
    Reaches host recurse resolved value session (place + 1) passed after := by
  unfold Reaches inTurn at hreaches ⊢
  simp only [List.take_add_one, hplace, Option.toList_some, List.foldlM_append, List.foldlM_cons,
    List.foldlM_nil, Bind.bind, EStateM.bind, hreaches, hkeyword]
  rfl

/-- **Each keyword of a silent run finds nothing** in what it is given. -/
theorem Silent.at_place (h : Silent host recurse resolved value session)
    (hrecurse : ∀ value definition, Restores (recurse value definition)) {keyword : Demand σ}
    (hplace : (keywords host recurse)[place]? = some keyword)
    (hreaches : Reaches host recurse resolved value session place reached between) :
    ∃ passed after, keyword resolved reached between = .ok passed after ∧
      after.context.violations = between.context.violations := by
  obtain ⟨hpresent, result, final, hok, hquiet⟩ := h
  have hrun : inTurn resolved (keywords host recurse) value session = .ok result final := by
    have habsent : ¬ value.isAbsent = true := fun habsent =>
      hpresent ((Value.isAbsent_iff value).1 habsent)
    rwa [demands, if_neg habsent] at hok
  rw [inTurn_split hplace] at hrun
  obtain ⟨v, middle, hbefore, hrun⟩ := bind_ok hrun
  obtain ⟨rfl, rfl⟩ := EStateM.Result.ok.inj (hreaches.symm.trans hbefore)
  obtain ⟨passed, after, hkeyword, hrest⟩ := bind_ok hrun
  -- Nothing is added in all, so nothing is added on the way.
  have hmem : keyword ∈ keywords host recurse := List.mem_of_getElem? hplace
  have hfirst := (restores_inTurn hrecurse (List.take_subset _ _) value).prefix_violations hbefore
  have hsecond := (Restores.keyword resolved reached hrecurse hmem).prefix_violations hkeyword
  have hthird := (restores_inTurn hrecurse (List.drop_subset _ _) passed).prefix_violations hrest
  rw [hquiet] at hthird
  exact ⟨passed, after, hkeyword,
    (hsecond.eq_of_length_le (Nat.le_trans hthird.length_le hfirst.length_le)).symm⟩

end Check

/-! ## Keywords that find nothing -/

/-- Nothing is asked of the heap, and all faults are admitted. -/
def Terms.any : Terms := ⟨fun _ => True, fun _ => True⟩

/-- What is ensured of a run, in one that adds no violations. -/
theorem Terms.Ensures.of_quiet {α : Type} {m : Check σ α} {Q : α → List Violation → Prop}
    {session after : Session σ} {a : α} (h : Terms.any.Ensures session.context m Q)
    (hrun : m session = .ok a after)
    (hquiet : after.context.violations = session.context.violations) : Q a [] := by
  have hends := h session.context.violations session.world trivial
  rw [Context.holding_self, hrun] at hends
  generalize hr : EStateM.Result.ok a after = r at hends
  cases hends with
  | error _ _ => cases hr
  | ok _ ha =>
    obtain ⟨rfl, rfl⟩ := EStateM.Result.ok.inj hr
    rw [Context.violations_holding, List.append_right_eq_self] at hquiet
    exact hquiet ▸ ha

namespace Check

open Terms (Ensures)

variable {host : Host σ} {recurse : Recurse σ} {resolved : Resolved} {context : Context}
  {value : Value}

/-- What passes the declared type in silence is of that type and of no other. -/
theorem ensures_type {kind : TypeName} (hkind : resolved.node.kind = some kind) :
    Terms.any.Ensures context (type resolved value : Check σ Value) fun w added =>
      added = [] → w ≠ .null ∧
        ∀ expected, expected ≠ .dateTime → (w.HasType expected ↔ kind = expected) := by
  unfold type
  split
  · next hnone => rw [hkind] at hnone; cases hnone
  · next hdate =>
    obtain rfl : kind = .dateTime := Option.some.inj (hkind.symm.trans hdate)
    split
    · exact .pure fun _ => ⟨nofun, fun expected hexpected => iff_of_false nofun hexpected.symm⟩
    · exact .returning (.report (fun _ => trivial) fun _ => nofun)
  · next declared _ hsome =>
    obtain rfl : kind = declared := Option.some.inj (hkind.symm.trans hsome)
    refine .returning (.demand (fun _ => trivial) (fun htype _ => ?_) fun _ => nofun)
    refine ⟨?_, fun expected _ => ?_⟩
    · rintro rfl
      cases hasType_iff.1 htype
    · cases hasType_iff.1 htype <;>
        exact ⟨fun h => by cases h; rfl, fun h => by cases h; constructor⟩

theorem ensures_oneOf : Terms.any.Ensures context (oneOf resolved value : Check σ Value)
    fun w _ => w = value := by
  unfold oneOf
  split
  · exact .pure rfl
  · refine .after (P := fun _ => True) (.readHeap fun _ _ => ⟨rfl, trivial⟩) fun _ _ => ?_
    exact .returning (.demand (fun _ => trivial) (fun _ => rfl) fun _ => rfl)

/-- Without a declared type, bounds complain of everything but numbers. -/
theorem ensures_bounds : Terms.any.Ensures context (bounds resolved value : Check σ Value)
    fun w added => w = value ∧ (added = [] → resolved.node.bounds ≠ none →
      resolved.node.kind = none → value.HasType .number) := by
  unfold bounds
  split
  · next hnone => exact .pure ⟨rfl, fun _ hsome => absurd hnone hsome⟩
  · exact .returning ((Ensures.forM (P := fun _ _ => True) fun _ _ =>
      .demand (fun _ => trivial) (fun _ => trivial) fun _ => trivial).imp
        fun _ _ _ => ⟨rfl, fun _ _ _ => .number⟩)
  · refine .returning (.demand (fun _ => trivial) (fun hsome => ⟨rfl, fun _ _ hnone => ?_⟩)
      fun _ => ⟨rfl, nofun⟩)
    rw [hnone] at hsome
    cases hsome

end Check

/-! ## Objects that stay objects -/

/-- A definition whose transform, if it has one, makes an object of an object and something
else, but not null, of anything else. -/
def Definition.KeepsObjects (host : Host σ) (definition : Definition) : Prop :=
  ∀ keywords transform, definition = .node keywords → keywords.custom = some transform →
    ∀ (value result : Value) (world : World σ), value ≠ .null →
      (transform.apply host value world).1 = .ok result →
        result ≠ .null ∧ (result.HasType .object ↔ value.HasType .object)

/-- Objects stay objects and nothing else becomes one, but in place of null. -/
def Regime.objects : Regime where
  terms := .any
  owns := fun _ => True
  becomes := fun u v => u ≠ .null → v ≠ .null ∧ (v.HasType .object ↔ u.HasType .object)
  fits := fun _ _ _ => True
  refl := fun _ hthere => ⟨hthere, Iff.rfl⟩
  trans := fun huv hvw hthere =>
    have hv := huv hthere
    ⟨(hvw hv.1).1, (hvw hv.1).2.trans hv.2⟩
  null := fun _ hthere => absurd rfl hthere
  moment := fun hmoment _ => ⟨nofun, iff_of_false nofun (by rintro ⟨⟩; cases hmoment)⟩
  scalar := fun _ => trivial
  read := fun _ _ _ _ => ⟨trivial, fun _ _ => trivial⟩
  missing := fun _ _ _ _ _ => trivial
  write := fun _ _ _ _ _ _ => trivial
  copy := fun _ _ => ⟨trivial, trivial⟩

theorem Regime.permits_objects {host : Host σ} {definition : Definition}
    (h : definition.KeepsObjects host) : Regime.objects.Permits host definition := by
  cases definition with
  | node keywords =>
    exact ⟨fun _ _ _ _ => ⟨trivial, trivial⟩, fun transform hcustom value world _ _ =>
      ⟨trivial, fun result hok => ⟨trivial, fun hthere =>
        h keywords transform rfl hcustom value result world hthere hok⟩⟩⟩
  | _ => trivial

namespace Check

open Terms (Ensures)

variable {host : Host σ} {resolved : Resolved} {context : Context} {value : Value}

/-- Alternatives without other transforms make an object of an object alone. -/
theorem ensures_either {depth : Nat}
    (hkeeps : ∀ definitions, resolved.node.either = some definitions → ∀ d ∈ definitions,
      d.Throughout host (Definition.KeepsObjects host)) :
    Terms.any.Ensures context (either (checkWithin host depth) resolved value) fun w _ =>
      value ≠ .null → w ≠ .null ∧ (w.HasType .object ↔ value.HasType .object) := by
  -- Alternatives see nothing of the node but the alternatives.
  let alone : Resolved := ⟨{ either := resolved.node.either }, true, false⟩
  have hleads : alone.node.Leads host (fun _ => Definition.Throughout host
      (Definition.KeepsObjects host)) context :=
    ⟨nofun, nofun, fun definitions heither d hd =>
      ⟨hkeeps definitions heither d hd, fun _ => hkeeps definitions heither d hd⟩⟩
  have hcheck := Regime.objects.ensures_checkWithin (fun _ _ => trivial) host _
    (fun _ => Regime.permits_objects) depth
  have hadmits : Regime.objects.Admits context := fun _ _ => trivial
  have hmakes : Regime.objects.terms.Ensures context (either (checkWithin host depth) alone value)
      (Regime.objects.Makes value) := Regime.ensures_either hcheck hadmits trivial hleads
  exact hmakes.imp fun _ _ hresult => hresult.2

/-- Without a declared type, fields complain of everything but objects. -/
theorem hasType_of_schema_quiet {recurse : Recurse σ} {session after : Session σ} {passed : Value}
    (h : schema host recurse resolved value session = .ok passed after)
    (hquiet : after.context.violations = session.context.violations)
    (hschema : resolved.node.schema ≠ none) (hkind : resolved.node.kind = none) :
    value.HasType .object := by
  by_contra hother
  -- Everything else is complained of, whatever the fields.
  have hcomplains : Terms.any.Ensures session.context (schema host recurse resolved value)
      fun _ added => added ≠ [] := by
    unfold schema
    split
    · next hnone => exact absurd hnone hschema
    · unfold withObject
      split
      · exact absurd .object hother
      · rw [hkind]
        exact .returning (.demand (fun _ => trivial) nofun fun _ => List.cons_ne_nil _ _)
  exact hcomplains.of_quiet h hquiet rfl

/-! ## Silent runs of nodes -/

variable {depth : Nat} {session : Session σ}

/-- A silent run takes the declared type in silence, and what passes it reaches the bounds. -/
theorem Silent.to_bounds
    (hsilent : Silent host (checkWithin host depth) resolved value session) :
    ∃ typed middle between, type resolved value session = .ok typed middle ∧
      middle.context.violations = session.context.violations ∧
        Reaches host (checkWithin host depth) resolved value session placeOfBounds typed
          between := by
  have hrecurse := checkWithin_restores host depth
  have hstart : Reaches host (checkWithin host depth) resolved value session 0 value session := rfl
  obtain ⟨typed, middle, htype, htypeQuiet⟩ := hsilent.at_place hrecurse rfl hstart
  have htyped := hstart.succ rfl htype
  obtain ⟨found, between, honeOf, honeOfQuiet⟩ := hsilent.at_place hrecurse rfl htyped
  obtain rfl := ensures_oneOf.of_quiet honeOf honeOfQuiet
  exact ⟨found, middle, between, htype, htypeQuiet, htyped.succ rfl honeOf⟩

/-- What reaches the bounds in a silent run is of the declared type and of no other. -/
theorem Silent.hasType_iff {reached : Value} {between : Session σ}
    (hsilent : Silent host (checkWithin host depth) resolved value session)
    (hreaches : Reaches host (checkWithin host depth) resolved value session placeOfBounds reached
      between) {kind : TypeName} (hkind : resolved.node.kind = some kind) :
    reached ≠ .null ∧ ∀ expected, expected ≠ .dateTime →
      (reached.HasType expected ↔ kind = expected) := by
  obtain ⟨typed, middle, _, htype, hquiet, htyped⟩ := hsilent.to_bounds
  obtain ⟨rfl, rfl⟩ := EStateM.Result.ok.inj (hreaches.symm.trans htyped)
  exact (ensures_type hkind).of_quiet htype hquiet rfl

/-- **What a silent run gives to the keywords for numbers and for objects.**  Bounds are given
a number exactly if the node declares that type or none.  Fields are given an object if the
node declares no type; and where the alternatives keep objects, exactly if it declares that
type or none. -/
theorem hasType_reached_of_silent
    (hsilent : Silent host (checkWithin host depth) resolved value session) :
    (resolved.node.bounds ≠ none → ∀ reached between,
      Reaches host (checkWithin host depth) resolved value session placeOfBounds reached between →
      (reached.HasType .number ↔
        ∀ kind, resolved.node.kind = some kind → kind = .number)) ∧
    (resolved.node.schema ≠ none → ∀ reached between,
      Reaches host (checkWithin host depth) resolved value session placeOfSchema reached between →
      (resolved.node.kind = none → reached.HasType .object) ∧
        ((∀ definitions, resolved.node.either = some definitions → ∀ d ∈ definitions,
            d.Throughout host (Definition.KeepsObjects host)) →
          (reached.HasType .object ↔
            ∀ kind, resolved.node.kind = some kind → kind = .object))) := by
  have hrecurse := checkWithin_restores host depth
  refine ⟨fun hbounds reached between hreaches => ?_, fun hschema reached between hreaches => ?_⟩
  · obtain ⟨passed, after, hrun, hquiet⟩ :=
      hsilent.at_place hrecurse keywords_placeOfBounds hreaches
    have hends := ensures_bounds.of_quiet hrun hquiet
    cases hkind : resolved.node.kind with
    | none => exact iff_of_true (hends.2 rfl hbounds hkind) nofun
    | some kind =>
      simp only [Option.some.injEq, forall_eq']
      exact (hsilent.hasType_iff hreaches hkind).2 .number nofun
  · obtain ⟨passed, after, hrun, hquiet⟩ :=
      hsilent.at_place hrecurse keywords_placeOfSchema hreaches
    have hobject := hasType_of_schema_quiet hrun hquiet hschema
    refine ⟨hobject, fun hkeeps => ?_⟩
    cases hkind : resolved.node.kind with
    | none => exact iff_of_true (hobject hkind) nofun
    | some kind =>
      simp only [Option.some.injEq, forall_eq']
      -- What the alternatives are given is what reached the bounds.
      obtain ⟨typed, _, atBounds, -, -, hbefore⟩ := hsilent.to_bounds
      obtain ⟨bounded, afterBounds, hboundsRun, hboundsQuiet⟩ :=
        hsilent.at_place hrecurse keywords_placeOfBounds hbefore
      obtain ⟨rfl, -⟩ := ensures_bounds.of_quiet hboundsRun hboundsQuiet
      have hbounded := hbefore.succ keywords_placeOfBounds hboundsRun
      obtain ⟨chosen, afterEither, heither, heitherQuiet⟩ := hsilent.at_place hrecurse rfl hbounded
      obtain ⟨rfl, rfl⟩ :=
        EStateM.Result.ok.inj (hreaches.symm.trans (hbounded.succ rfl heither))
      obtain ⟨hthere, htypes⟩ := hsilent.hasType_iff hbefore hkind
      exact (((ensures_either hkeeps).of_quiet heither heitherQuiet hthere).2).trans
        (htypes .object nofun)

/-- A number that passes a node for numbers with fields: it reaches the bounds and also the
fields, though it is no object. -/
theorem hasType_reached_number :
    let resolved := ({} : Policy).complete
      { kind := some .number, bounds := some { gte := some 1 }, schema := some (.declared []) }
    let session : Session Unit := ⟨.start {}, { env := () }⟩
    Silent default (checkWithin default 0) resolved (.number 2) session ∧
      (∀ reached between, Reaches default (checkWithin default 0) resolved (.number 2) session
        placeOfBounds reached between → reached.HasType .number) ∧
      ∀ reached between, Reaches default (checkWithin default 0) resolved (.number 2) session
        placeOfSchema reached between → ¬ reached.HasType .object := by
  intro resolved session
  have hsilent : Silent default (checkWithin default 0) resolved (.number 2) session :=
    ⟨nofun, .number 2, session, rfl, rfl⟩
  obtain ⟨hbounds, hschema⟩ := hasType_reached_of_silent hsilent
  refine ⟨hsilent, fun reached between hreaches => ?_, fun reached between hreaches hobject => ?_⟩
  · exact (hbounds nofun reached between hreaches).2 fun _ hkind => (Option.some.inj hkind).symm
  · cases ((hschema nofun reached between hreaches).2 nofun).1 hobject .number rfl

/-- A text passes a node for texts that has bounds and fields as well: it reaches both, and the
check finds nothing, though it is neither a number nor an object. -/
theorem not_hasType_reached_text :
    let node : Node Definition :=
      { kind := some .string, bounds := some { gte := some 1 }, schema := some (.declared []) }
    let resolved := ({} : Policy).complete node
    let session : Session Unit := ⟨.start {}, { env := () }⟩
    Silent default (checkWithin default 0) resolved (.string "x") session ∧
      (Reaches default (checkWithin default 0) resolved (.string "x") session placeOfBounds
        (.string "x") session ∧ ¬ (Value.string "x").HasType .number) ∧
      (Reaches default (checkWithin default 0) resolved (.string "x") session placeOfSchema
        (.string "x") session ∧ ¬ (Value.string "x").HasType .object) ∧
      (check default {} (.string "x") (.node node) session.world).1 = .ok ⟨.string "x", []⟩ :=
  ⟨⟨nofun, .string "x", _, rfl, rfl⟩, ⟨rfl, nofun⟩, ⟨rfl, nofun⟩, rfl⟩

end Check

end Conform
