import Mathlib.Control.Monad.Basic
import Mathlib.Data.List.Forall2
import Conform.Proofs.Definition.Met
import Conform.Proofs.Validation.Postcondition

/-!
# What violations report

A violation says where it was found and what is wrong there.  The place is the name of the
value and the steps that the check has taken; and where no alternative was met, what is wrong
with each of the alternatives is kept inside, found at the same place or further on.

A keyword complains about its own value or about a part that is one step away.  All other
violations come from the check of a part, which begins further on and with another
definition; what is reported of the part is reported of the whole as well.  So it is enough
to look at each keyword once.

## Main definitions

* `Definition.MetAt`: the definitions met at some place of a value.
* `Violation.Reported`: what a check against a definition may report.
* `Check.Reports`: what all violations of a part of a check have in common.

## Main results

* `Violation.Reported.of_metAt`: what is reported of a part is reported of the whole.
* `Check.reports_checkWithin`: a check reports nothing else.
* `Violation.reported_of_check`: this is so from the start.
-/

namespace Conform

variable {σ : Type} {host : Host σ}

/-! ## Places -/

/-- The text of a place: the name of the value, and the steps that lead there. -/
def Accessor.textFrom (root : String) (steps : List Accessor) : String :=
  steps.foldl (fun text step => text ++ step.token) root

theorem Accessor.textFrom_append (root : String) (steps more : List Accessor) :
    textFrom root (steps ++ more) = textFrom (textFrom root steps) more :=
  List.foldl_append

namespace Definition

/-- The node that a definition may come to, in whatever state the host is. -/
def Unfolds (host : Host σ) (definition : Definition) (keywords : Node Definition) : Prop :=
  ∃ env env', definition.unfold host maxThunkChain env = .ok keywords env'

/-- The definitions that a check against a definition may come to, and the steps that lead
from the one place to the other. -/
inductive MetAt (host : Host σ) (definition : Definition) : List Accessor → Definition → Prop where
  | here : MetAt host definition [] definition
  | field {steps : List Accessor} {met : Definition} {keywords : Node Definition}
      {fields : Fields Definition} {env env' : σ} {declared : List (String × Definition)}
      {field : String × Definition} : MetAt host definition steps met →
      met.Unfolds host keywords → keywords.schema = some fields →
      fields.resolve host env = .ok declared env' → field ∈ declared →
      MetAt host definition (steps ++ [.key field.1]) field.2
  | item {steps : List Accessor} {met : Definition} {keywords : Node Definition}
      {item : Definition} (accessor : Accessor) : MetAt host definition steps met →
      met.Unfolds host keywords → keywords.items = some item →
      MetAt host definition (steps ++ [accessor]) item
  | alternative {steps : List Accessor} {met : Definition} {keywords : Node Definition}
      {alternatives : List Definition} {alternative : Definition} :
      MetAt host definition steps met → met.Unfolds host keywords →
      keywords.either = some alternatives → alternative ∈ alternatives →
      MetAt host definition steps alternative

theorem MetAt.trans {definition met last : Definition} {steps more : List Accessor}
    (h : MetAt host definition steps met) (h' : MetAt host met more last) :
    MetAt host definition (steps ++ more) last := by
  induction h' with
  | here => simpa using h
  | field _ hunfolds hschema hresolve hfield ih =>
    rw [← List.append_assoc]
    exact .field ih hunfolds hschema hresolve hfield
  | item accessor _ hunfolds hitems ih =>
    rw [← List.append_assoc]
    exact .item accessor ih hunfolds hitems
  | alternative _ hunfolds heither hmem ih => exact .alternative ih hunfolds heither hmem

end Definition

/-! ## Violations -/

/-- Every complaint has a wording. -/
theorem Complaint.text_ne_empty (complaint : Complaint) : complaint.text ≠ "" := by
  cases complaint <;> simp [text]

/-- What a check against a definition may report of a value that is named `base`: a complaint
about a place, or that none of the alternatives is met that a definition has which is met at
the place.  In that case it keeps, for each alternative, what the check against it reports of
the value there, and that is never nothing. -/
inductive Violation.Reported (host : Host σ) : Definition → String → Violation → Prop where
  | plain {definition : Definition} {base text : String} (steps : List Accessor) :
      text ≠ "" → Reported host definition base
        ⟨Accessor.textFrom base steps, Accessor.textFrom base steps ++ " " ++ text, []⟩
  | noAlternative {definition met : Definition} {base : String} {steps : List Accessor}
      {keywords : Node Definition} {alternatives : List Definition}
      {inner : List (List Violation)} : definition.MetAt host steps met →
      met.Unfolds host keywords → keywords.either = some alternatives →
      inner.length = alternatives.length → (∀ violations ∈ inner, violations ≠ []) →
      (∀ pair ∈ alternatives.zip inner, ∀ violation ∈ pair.2,
        Reported host pair.1 (Accessor.textFrom base steps) violation) →
      Reported host definition base ⟨Accessor.textFrom base steps,
        Accessor.textFrom base steps ++ " " ++ "does not match any valid criteria", inner⟩

namespace Violation.Reported

variable {definition met : Definition} {base : String} {steps : List Accessor}

/-- **What is reported of a part is reported of the whole.** -/
theorem of_metAt {violation : Violation} (hmet : definition.MetAt host steps met)
    (h : Reported host met (Accessor.textFrom base steps) violation) :
    Reported host definition base violation := by
  cases h with
  | plain more htext =>
    rw [← Accessor.textFrom_append]
    exact .plain (steps ++ more) htext
  | noAlternative hfurther hunfolds heither hlength hne hinner =>
    simp only [← Accessor.textFrom_append] at hinner ⊢
    exact .noAlternative (hmet.trans hfurther) hunfolds heither hlength hne hinner

/-- A complaint about the value itself. -/
theorem here (definition : Definition) (base : String) (complaint : Complaint) :
    Reported host definition base (.ofComplaint base complaint []) :=
  .plain [] complaint.text_ne_empty

/-- A complaint about a part. -/
theorem oneStep (definition : Definition) (base : String) (accessor : Accessor)
    (complaint : Complaint) :
    Reported host definition base (.ofComplaint (base ++ accessor.token) complaint []) :=
  .plain [accessor] complaint.text_ne_empty

end Violation.Reported

/-! ## Reporting -/

/-- Checks that end with a violation end with a good one. -/
def Terms.reporting (good : Violation → Prop) : Terms :=
  ⟨fun _ => True, fun fault => ∀ violation ∈ fault.violations, good violation⟩

namespace Terms

variable (good : Violation → Prop)

theorem reporting_definition (fault : DefinitionError) :
    (reporting good).faulty (.definition fault) := nofun

theorem reporting_exhausted : (reporting good).faulty .exhausted := nofun

theorem reporting_assertion {good : Violation → Prop} {violation : Violation} (h : good violation) :
    (reporting good).faulty (.assertion violation) := by
  intro other hother
  rw [List.mem_singleton.1 hother]
  exact h

end Terms

namespace Check

open Terms (Ensures)

variable {α β : Type}

/-- All violations that a part of a check reports are good: those that it adds, and the one
that it ends with if it ends with one. -/
def Reports (good : Violation → Prop) (context : Context) (m : Check σ α) : Prop :=
  (Terms.reporting good).Ensures context m fun _ added => ∀ violation ∈ added, good violation

namespace Reports

variable {good : Violation → Prop} {context : Context}

theorem imp {good' : Violation → Prop} {m : Check σ α} (h : Reports good context m)
    (himp : ∀ violation, good violation → good' violation) : Reports good' context m := by
  intro V world _
  have hends := h V world trivial
  revert hends
  generalize m ⟨context.holding V, world⟩ = r
  rintro (⟨-, hadded⟩ | ⟨-, hfault⟩)
  · exact .ok trivial fun violation hmem => himp _ (hadded violation hmem)
  · exact .error trivial fun violation hmem => himp _ (hfault violation hmem)

theorem pure (a : α) : Reports good context (pure a : Check σ α) := Ensures.pure (by simp)

theorem ofRun (m : Run σ α) : Reports good context (ofRun m) :=
  Ensures.ofRun fun _ _ => ⟨trivial, by simp⟩

theorem changeHeap (f : Heap → Heap) : Reports good context (changeHeap f : Check σ Unit) :=
  ofRun _

/-- A first step that reports nothing. -/
theorem after {P : α → Prop} {m : Check σ α} {f : α → Check σ β}
    (hm : (Terms.reporting good).Ensures context m fun a added => added = [] ∧ P a)
    (hf : ∀ a, P a → Reports good context (f a)) : Reports good context (m >>= f) :=
  Ensures.after hm hf

theorem afterHeap {f : Heap → α} {g : α → Check σ β} (hg : ∀ a, Reports good context (g a)) :
    Reports good context (readHeap f >>= g) :=
  after (P := fun _ => True) (Ensures.readHeap fun _ _ => ⟨rfl, trivial⟩) fun a _ => hg a

theorem bind {m : Check σ α} {f : α → Check σ β} (hm : Reports good context m)
    (hf : ∀ a, Reports good context (f a)) : Reports good context (m >>= f) := by
  refine Ensures.bind hm fun a added hadded =>
    Ensures.imp (hf a) fun _ more hmore violation hmem => ?_
  rcases List.mem_append.1 hmem with hfirst | hrest
  · exact hadded violation hfirst
  · exact hmore violation hrest

theorem returning {m : Check σ α} {b : β} (hm : Reports good context m) :
    Reports good context (do let _ ← m; return b) :=
  hm.bind fun _ => pure b

theorem ite {c : Prop} [Decidable c] {m m' : Check σ α} (h : Reports good context m)
    (h' : Reports good context m') : Reports good context (if c then m else m') :=
  Ensures.ite (fun _ => h) fun _ => h'

theorem forM {f : β → Check σ PUnit} {xs : List β} (h : ∀ x ∈ xs, Reports good context (f x)) :
    Reports good context (xs.forM f) := by
  induction xs with
  | nil => exact pure PUnit.unit
  | cons x xs ih =>
    exact (h x (List.mem_cons_self ..)).bind fun _ => ih fun y hy => h y (List.mem_cons_of_mem _ hy)

theorem foldlM {f : β → α → Check σ β} {xs : List α}
    (h : ∀ x ∈ xs, ∀ b, Reports good context (f b x)) (b : β) :
    Reports good context (xs.foldlM f b) := by
  induction xs generalizing b with
  | nil => exact pure b
  | cons x xs ih =>
    rw [List.foldlM_cons]
    exact (h x (List.mem_cons_self ..) b).bind (ih fun y hy => h y (List.mem_cons_of_mem _ hy))

/-! ### Complaints -/

theorem report {complaint : Complaint} {inner : List (List Violation)}
    (h : good (.ofComplaint context.pathText complaint inner)) :
    Reports good context (report complaint inner : Check σ Unit) :=
  Ensures.report (fun _ => Terms.reporting_assertion h) fun _ => by simpa using h

theorem demand {holds : Bool} {complaint : Complaint}
    (h : good (.ofComplaint context.pathText complaint [])) :
    Reports good context (demand holds complaint : Check σ Unit) :=
  ite (pure ()) (report h)

theorem demandAt {accessor : Accessor} {holds : Bool} {complaint : Complaint}
    (h : good (.ofComplaint (context.pathText ++ accessor.token) complaint [])) :
    Reports good context (demandAt accessor holds complaint : Check σ Unit) :=
  Ensures.demandAt (fun _ => Terms.reporting_assertion h) (fun _ => by simp)
    fun _ => by simpa using h

/-! ### Going in -/

theorem inside {ref : Ref} {m : Check σ Unit}
    (hcycle : good (.ofComplaint context.pathText .cycle []))
    (h : ∀ ancestors, Reports good { context with ancestors } m) :
    Reports good context (inside ref m) :=
  Ensures.inside (fun _ => report hcycle) fun _ => h _

end Reports

/-! ## Keywords -/

/-- All violations that a part of a check reports may be reported of a value that is checked
against the definition. -/
abbrev ReportsFor (host : Host σ) (definition : Definition) (context : Context)
    (m : Check σ α) : Prop :=
  Reports (Violation.Reported host definition context.pathText) context m

section Keywords

variable {definition : Definition} {context : Context} {resolved : Resolved} {value : Value}

theorem reports_type : ReportsFor host definition context
    (type resolved value : Check σ Value) := by
  unfold type
  split
  · exact .pure _
  · split
    · exact .pure _
    · exact .returning (.report (.here ..))
  · exact .returning (.demand (.here ..))

theorem reports_oneOf : ReportsFor host definition context
    (oneOf resolved value : Check σ Value) := by
  unfold oneOf
  split
  · exact .pure _
  · exact .afterHeap fun _ => .returning (.demand (.here ..))

theorem reports_bounds : ReportsFor host definition context
    (bounds resolved value : Check σ Value) := by
  unfold bounds
  split
  · exact .pure _
  · exact .returning (.forM fun _ _ => .demand (.here ..))
  · exact .returning (.demand (.here ..))

theorem reports_withObject {m : Ref → Check σ Unit}
    (hm : ∀ ref, ReportsFor host definition context (m ref)) :
    ReportsFor host definition context (withObject resolved value m) := by
  unfold withObject
  split
  · exact .returning (hm _)
  · exact .returning (.demand (.here ..))

theorem reports_require : ReportsFor host definition context
    (require resolved value : Check σ Value) := by
  unfold require
  split
  · exact .pure _
  · exact reports_withObject fun _ => .forM fun _ _ => .afterHeap fun _ => .demandAt (.oneStep ..)

theorem reports_restrict : ReportsFor host definition context
    (restrict resolved value : Check σ Value) := by
  unfold restrict
  split
  · exact .pure _
  · exact reports_withObject fun _ => .forM fun _ _ => .afterHeap fun _ => .demandAt (.oneStep ..)

theorem reports_custom : ReportsFor host definition context (custom host resolved value) := by
  unfold custom
  split
  · exact .pure _
  · refine .bind (.ofRun _) fun result => ?_
    cases result with
    | ok _ => exact .pure _
    | error _ => exact .returning (.report (.here ..))

end Keywords

/-! ## Keywords that go into the parts -/

/-- The check of a part, wherever it is, reports what may be reported of the part. -/
def ReportsParts (host : Host σ) (recurse : Recurse σ) : Prop :=
  ∀ (context : Context) (value : Value) (definition : Definition),
    ReportsFor host definition context (recurse value definition)

section Parts

variable {recurse : Recurse σ} {definition : Definition} {context : Context} {resolved : Resolved}
  {value : Value}
  (hrecurse : ReportsParts host recurse) (hunfolds : definition.Unfolds host resolved.node)
include hrecurse

/-- The check of a part reports what may be reported of the whole. -/
theorem reports_under (context : Context) {part : Definition} (accessor : Accessor)
    (hmet : definition.MetAt host [accessor] part) :
    ReportsFor host definition context (under accessor (recurse value part)) :=
  Ensures.under <| (hrecurse { context with path := accessor :: context.path } value part).imp
    fun _ h => h.of_metAt hmet

include hunfolds

theorem reports_schema : ReportsFor host definition context
    (schema host recurse resolved value) := by
  unfold schema
  split
  · exact .pure _
  · next fields hschema =>
    refine reports_withObject fun ref => ?_
    refine .after (P := fun declared => ∃ env env', fields.resolve host env = .ok declared env')
      (.ofForcing (fun env declared env' h => ⟨rfl, env, env', h⟩)
        fun _ fault _ _ => Terms.reporting_definition _ fault)
      fun declared ⟨env, env', hresolve⟩ => ?_
    refine .inside (.here ..) fun ancestors => .bind (.forM fun field hfield => ?_) fun _ => ?_
    · have hmet : definition.MetAt host [.key field.1] field.2 :=
        .field .here hunfolds hschema hresolve hfield
      refine .afterHeap fun current => .bind ?_ fun checked => .ite (.changeHeap _) (.pure _)
      exact reports_under hrecurse { context with ancestors } _ hmet
    · exact .ite (.afterHeap fun _ => .forM fun _ _ => .demandAt (.oneStep ..)) (.pure _)

theorem reports_items : ReportsFor host definition context (items recurse resolved value) := by
  unfold items
  split
  · exact .pure _
  · next part ref hitems =>
    refine .returning (.inside (.here ..) fun ancestors => .afterHeap fun _ => .forM fun _ _ => ?_)
    refine .bind (reports_under hrecurse { context with ancestors } _ ?_) fun _ => .changeHeap _
    exact .item _ .here hunfolds hitems
  · next part ref hitems =>
    refine .returning (.inside (.here ..) fun ancestors => .afterHeap fun _ => .forM fun _ _ => ?_)
    refine .bind (reports_under hrecurse { context with ancestors } _ ?_) fun _ => .changeHeap _
    exact .item _ .here hunfolds hitems
  · exact .returning (.report (.here ..))

/-- Where no alternative is met, what each of them reports is kept. -/
theorem reports_either : ReportsFor host definition context (either recurse resolved value) := by
  unfold either
  split
  · exact .pure _
  · next alternatives heither =>
    have hmet : ∀ alternative ∈ alternatives, definition.MetAt host [] alternative :=
      fun _ hmem => .alternative .here hunfolds heither hmem
    refine Ensures.alternatives_inner (fun alternative violations => ∀ violation ∈ violations,
      Violation.Reported host alternative context.pathText violation) ?_ ?_ [] ?_
    · -- A trial is of a copy, but at the same place.
      refine fun alternative hmem => .tryAlternative fun heap _ =>
        ⟨Terms.reporting (Violation.Reported host alternative context.pathText), trivial,
          fun _ _ => trivial, fun fault hfault violation hviolation => ?_, ?_⟩
      · exact (hfault violation hviolation).of_metAt (hmet alternative hmem)
      · exact Ensures.imp (hrecurse (context.fork _) _ alternative)
          fun _ added hadded => ⟨rfl, hadded⟩
    · exact fun alternative hmem _ => (hrecurse context value alternative).imp
        fun _ h => h.of_metAt (hmet alternative hmem)
    · intro inner hinner
      obtain ⟨hlength, hpairs⟩ := List.forall₂_iff_zip.1 hinner
      refine Reports.report (.noAlternative .here hunfolds heither hlength.symm ?_ ?_)
      · intro violations hmem
        obtain ⟨i, hi, rfl⟩ := List.mem_iff_getElem.1 hmem
        exact (hinner.get (hlength ▸ hi) hi).1
      · exact fun pair hpair => (hpairs hpair).2

end Parts

/-! ## Nodes -/

/-- A default that is refused is a fault and no violation. -/
theorem reports_supply {good : Violation → Prop} {context : Context} {resolved : Resolved}
    {value : Value} : Reports good context (supply host resolved value) := by
  unfold supply
  split
  · refine .after (P := fun _ => True) (.readContext (f := fun c =>
      c.atRoot && !c.options.policy.allowRootDefault) (fun _ => rfl) ⟨rfl, trivial⟩) fun _ _ =>
        .ite ?_ (.ofRun _)
    exact .after (P := fun _ => True) (.readContext (f := Context.pathText) (fun _ => rfl)
      ⟨rfl, trivial⟩) fun _ _ => .throw (Terms.reporting_definition _ _)
  · exact .pure _

theorem reports_demands {recurse : Recurse σ} {definition : Definition} {resolved : Resolved}
    {value : Value}
    (hrecurse : ReportsParts host recurse) (context : Context)
    (hunfolds : definition.Unfolds host resolved.node) :
    ReportsFor host definition context (demands host recurse resolved value) := by
  unfold demands
  refine .ite (.returning (.demand (.here ..))) (.foldlM (fun keyword hkeyword v => ?_) value)
  simp only [keywords, List.mem_cons, List.not_mem_nil, or_false] at hkeyword
  rcases hkeyword with rfl | rfl | rfl | rfl | rfl | rfl | rfl | rfl | rfl
  · exact reports_type
  · exact reports_oneOf
  · exact reports_bounds
  · exact reports_either hrecurse hunfolds
  · exact reports_schema hrecurse hunfolds
  · exact reports_require
  · exact reports_restrict
  · exact reports_items hrecurse hunfolds
  · exact reports_custom

/-- **A check reports nothing else.** -/
theorem reports_checkWithin (host : Host σ) (depth : Nat) :
    ReportsParts host (checkWithin host depth) := by
  induction depth with
  | zero => exact fun _ _ _ => .throw (Terms.reporting_exhausted _)
  | succ depth ih =>
    intro context value definition
    refine .visiting (fun _ => Terms.reporting_definition _ _) fun _ => ?_
    refine Reports.after (P := fun _ => True) (.readContext (f := fun c => c.options.policy)
      (fun _ => rfl) ⟨rfl, trivial⟩) fun policy _ => ?_
    refine .after (P := fun resolved => definition.Unfolds host resolved.node)
      (.ofForcing (fun env resolved env' hresolve => ⟨rfl, ?_⟩)
        fun _ fault _ _ => Terms.reporting_definition _ fault) fun resolved hunfolds => ?_
    · obtain ⟨keywords, hunfold, rfl⟩ := Definition.unfold_of_resolve hresolve
      exact ⟨env, env', hunfold⟩
    · exact .bind reports_supply fun _ => reports_demands ih context.visited hunfolds

end Check

/-! ## Checks from the start -/

/-- **Every violation of a check is well formed**, whether it is one of those found or the one
that the check ends with.  It names a place by the name of the value and the steps that lead
there, and says something of it; and if it keeps violations inside, no alternative of an
`either` was met at that place: it keeps some for each of them, which are well formed as well
and found there or further on. -/
theorem Violation.reported_of_check (host : Host σ) (options : Options) (value : Value)
    (definition : Definition) (world : World σ) :
    (∀ outcome, (check host options value definition world).1 = .ok outcome →
      ∀ violation ∈ outcome.violations, violation.Reported host definition options.root) ∧
    ∀ fault, (check host options value definition world).1 = .error fault →
      ∀ violation ∈ fault.violations, violation.Reported host definition options.root := by
  have hends : (Terms.reporting _).Ends (.start options) [] _
      (checkWithin host (nestingBound world.heap definition) value definition
        ⟨.start options, world⟩) :=
    Check.reports_checkWithin host (nestingBound world.heap definition) (.start options) value
      definition [] world trivial
  unfold check
  revert hends
  generalize checkWithin host (nestingBound world.heap definition) value definition
    ⟨.start options, world⟩ = r
  rintro (⟨-, hadded⟩ | ⟨-, hfault⟩)
  · refine ⟨?_, nofun⟩
    rintro _ ⟨⟩
    exact hadded
  · refine ⟨nofun, ?_⟩
    rintro _ ⟨⟩
    exact hfault

/-- A choice inside a choice: what is kept inside is found further on. -/
theorem Violation.reported_of_check_nested :
    let choice : Definition := .node { either := some [.shorthand .number, .shorthand .boolean] }
    let record : Definition := .node { schema := some (.declared [("id", choice)]) }
    let definition : Definition := .node { either := some [record, .shorthand .string] }
    let world : World Unit := ⟨{ containers := #[.object (.ofList [("id", .string "x")])] }, ()⟩
    let violation : Violation := .ofComplaint "value" .noAlternative
      [[.ofComplaint "value.id" .noAlternative
          [[.ofComplaint "value.id" (.wrongType .number) []],
            [.ofComplaint "value.id" (.wrongType .boolean) []]]],
        [.ofComplaint "value" (.wrongType .string) []]]
    (check default {} (.object 0) definition world).1 = .ok ⟨.object 0, [violation]⟩ ∧
      violation.Reported (default : Host Unit) definition "value" := by
  intro choice record definition world violation
  have hfound : (check default {} (.object 0) definition world).1 =
      .ok ⟨.object 0, [violation]⟩ := by
    decide +kernel
  refine ⟨hfound, ?_⟩
  exact (Violation.reported_of_check default {} (.object 0) definition world).1 _ hfound violation
    (List.mem_singleton_self _)

end Conform
