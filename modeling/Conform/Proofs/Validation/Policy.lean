import Conform.Proofs.Definition.Strictness
import Conform.Proofs.Validation.Depth
import Conform.Proofs.Validation.OneWorld

/-!
# What the policy decides

The policy decides two things: whether objects are strict where their definition does not say,
and whether a default may stand in for the value as a whole.  A check asks for the one whenever
it resolves a definition and for the other whenever a default stands in for an absent value.

So the policy on strictness may as well be written into the definition, with the host that
yields the deferred parts of it.  The policy on defaults concerns nothing but an absent value
with which the check begins: alternatives are checked at the same place as the value, yet they
are asked for only where there is one.

Both come out of one comparison of checks that stand at one place of one world under different
policies, against definitions that resolve alike.

## Main definitions

* `Scope.across`: the comparison of checks under different policies.
* `Check.RootPresent`: calls that are not about an absent value at the place of the whole.

## Main results

* `Scope.follows_across`: checks of definitions that resolve alike come to the same.
* `check_declaring`: the policy on strictness is the same as writing it out.
* `check_allowRootDefault`: the policy on defaults concerns an absent root alone.
-/

namespace Conform

variable {σ : Type}

/-- The same place of a check under another policy. -/
def Context.following (context : Context) (policy : Policy) : Context :=
  { context with options := { context.options with policy } }

theorem Context.pathText_following (context : Context) (policy : Policy) :
    context.pathText = (context.following policy).pathText := rfl

theorem Context.asserting_following (context : Context) (policy : Policy) :
    context.asserting = true → (context.following policy).asserting = true := id

/-- At the place of the value as a whole, nothing absent is taken up but at the beginning. -/
def Check.RootPresent (value : Value) (_ : Definition) (session : Session σ) : Prop :=
  session.context.atRoot = true → value.isAbsent = true → session.context.visits = []

theorem Value.isAbsent_copyWithOrigins (value : Value) (heap : Heap) :
    (value.copyWithOrigins heap).1.1.isAbsent = value.isAbsent := by
  cases value <;> rfl

/-! ## Two policies -/

namespace Scope

open Check

variable {context : Context} {policy policy' : Policy} {host host' : Host σ}
  {definitions : Definition → Definition → Prop}

/-- The comparison of checks that stand at one place of one world under different policies. -/
abbrev across (σ : Type) (context : Context) (policy : Policy) : Scope σ Still :=
  inOneWorld σ context (context.following policy) (context.pathText_following policy)
    (context.asserting_following policy)

/-- Definitions that resolve under the two policies to nodes whose keywords correspond. -/
def ResolveAlike (host host' : Host σ) (definitions : Definition → Definition → Prop)
    (policy policy' : Policy) : Prop :=
  ∀ d e, definitions d e → ∀ context : Context,
    (across σ context policy').Runs .still (Run.ofForcing (resolve host policy d))
      (Run.ofForcing (resolve host' policy' e)) fun j =>
        AlikeResult ((across σ context policy').Matches host host' definitions j)

/-- A trial under either policy begins with the same copies of the same containers. -/
theorem side_across (copies : List (Ref × Ref)) (world : World σ) :
    (across σ context policy').Side .still (across σ (context.fork copies) policy') .still copies
      copies world world :=
  ⟨rfl, rfl, ⟨rfl, trivial⟩, id, fun _ _ _ _ hworld => ⟨.still, le_refl _, hworld⟩⟩

/-- **Checks of definitions that resolve alike come to the same** under the two policies, if
these agree on an absent value with which the check begins.  Then no other absent value is
taken up at the place of the whole. -/
theorem follows_across (hresolve : ResolveAlike host host' definitions policy policy')
    {permitted : Value → Definition → Session σ → Prop}
    (hpermitted : ∀ value definition session,
      RootPresent value definition session → permitted value definition session)
    (refusal : ValidationError) (depth : Nat) (hpolicy : context.options.policy = policy)
    {value : Value} {d e : Definition} (hde : definitions d e)
    (hroot : context.atRoot = true → value.isAbsent = true →
      context.visits = [] ∧ policy.allowRootDefault = policy'.allowRootDefault) :
    (across σ context policy').Follows .still (checkWithin host depth value d)
      (checkGuarded host' permitted refusal depth value e)
      (across σ context policy').value := by
  have hguard : ∀ {context : Context} {value : Value} {e : Definition},
      (context.atRoot = true → value.isAbsent = true →
        context.visits = [] ∧ policy.allowRootDefault = policy'.allowRootDefault) →
      ∀ j : Still, .still ≤ j → ∀ w₁ w₂ : World σ, (across σ context policy').world j w₁ w₂ →
        ∀ violations,
          permitted value e ⟨(across σ context policy').right.holding violations, w₂⟩ :=
    fun hroot _ _ _ _ _ _ => hpermitted _ _ _ fun hplace habsent => (hroot hplace habsent).1
  -- The contexts change from call to call, and so the induction is for all of them.
  induction depth generalizing context value d e with
  | zero => exact .guarding (hguard hroot) (.throw fun _ => trivial)
  | succ depth ih =>
    refine .guarding (hguard hroot) ?_
    refine .visiting Iff.rfl (.node _ (checkWithin_restores host _) _) fun _ => ?_
    have hvisited : context.visited.options.policy = policy := hpolicy
    -- One step on is not the place of the whole, and what is there is not absent in a trial.
    have hpresent : ∀ {context : Context} {w : Value}, w.isAbsent = false →
        context.atRoot = true → w.isAbsent = true →
          context.visits = [] ∧ policy.allowRootDefault = policy'.allowRootDefault := by
      intro context w hw _ habsent
      rw [hw] at habsent
      cases habsent
    have henters : (across σ context.visited policy').Enters definitions (checkWithin host depth)
        (checkGuarded host' permitted refusal depth) .still := by
      constructor
      case restores => exact checkWithin_restores host _
      case guard =>
        rintro j - r _ ⟨rfl, -⟩
        exact Iff.rfl
      case below =>
        rintro ⟨⟩ - r _ ⟨rfl, -⟩ - accessor ⟨⟩ - w _ hvw d e hde
        obtain rfl := inOneWorld_value_iff.1 hvw
        have hbelow : (context.visited.entered r accessor).options.policy = policy := hpolicy
        exact ih hbelow hde nofun
    have hleft : (across σ context.visited policy').left.options.policy = policy := hpolicy
    refine Follows.node_of_serves henters ?_ ?_ (inOneWorld_value_iff.2 rfl)
    · rintro ⟨⟩ - w₁ w₂ hworld
      obtain ⟨k, hjk, hworld', hresult⟩ :=
        hresolve d e hde context.visited .still (le_refl _) w₁ w₂ hworld
      rw [hleft]
      refine ⟨k, hjk, hworld', .imp (fun a b hmatches => ⟨hmatches, ?_⟩) hresult⟩
      rintro ⟨⟩ - w _ hvw hw
      obtain rfl := inOneWorld_value_iff.1 hvw
      refine Follows.either (checkWithin_restores host _) ?_ ?_ hmatches.either hvw
      · rintro ⟨⟩ - d e hde
        exact ih hvisited hde (hpresent hw)
      · rintro ⟨⟩ - d e hde ⟨⟩ - V W world _ ⟨rfl, -⟩
        -- Both sides make the same copy, since they are in the same world.
        let copied := w.copyWithOrigins world.heap
        have hforked : (context.visited.fork copied.1.2).options.policy = policy := hpolicy
        have hcopy : copied.1.1.isAbsent = false :=
          (Value.isAbsent_copyWithOrigins w world.heap).trans hw
        have hside := @side_across σ context.visited policy' copied.1.2 ⟨copied.2, world.env⟩
        exact Follows.trial hside (ih hforked hde (hpresent hcopy)) V W
    · intro habsent
      rw [hleft]
      change (context.atRoot && !policy.allowRootDefault) =
        (context.atRoot && !policy'.allowRootDefault)
      cases hplace : context.atRoot with
      | false => rfl
      | true => rw [(hroot hplace habsent).2]

/-- Whole checks of definitions that resolve alike come to the same, and nothing absent is
taken up again at the place of the whole. -/
theorem outcome_checkGuarded (hresolve : ResolveAlike host host' definitions policy policy')
    {permitted : Value → Definition → Session σ → Prop}
    (hpermitted : ∀ value definition session,
      RootPresent value definition session → permitted value definition session)
    (refusal : ValidationError) (depth : Nat) {value : Value} {d e : Definition}
    (hde : definitions d e)
    (hroot : value.isAbsent = true → policy.allowRootDefault = policy'.allowRootDefault)
    (options : Options) (world : World σ) :
    outcome (checkGuarded host' permitted refusal depth value e
        ⟨.start { options with policy := policy' }, world⟩) =
      outcome (checkWithin host depth value d
        ⟨.start { options with policy := policy }, world⟩) := by
  have hfollows : (across σ (.start { options with policy := policy }) policy').Follows .still
      (checkWithin host depth value d) (checkGuarded host' permitted refusal depth value e)
      (across σ (.start { options with policy := policy }) policy').value :=
    follows_across hresolve hpermitted refusal depth rfl hde fun _ habsent => ⟨rfl, hroot habsent⟩
  exact outcome_eq_of_follows id rfl hfollows

end Scope

/-- Definitions of one depth that resolve alike are checked alike. -/
theorem check_of_resolveAlike {policy policy' : Policy} {host host' : Host σ}
    {definitions : Definition → Definition → Prop}
    (hresolve : Scope.ResolveAlike host host' definitions policy policy') {value : Value}
    {d e : Definition} (hde : definitions d e) (hdepth : e.depth = d.depth)
    (hroot : value.isAbsent = true → policy.allowRootDefault = policy'.allowRootDefault)
    (options : Options) (world : World σ) :
    check host' { options with policy := policy' } value e world =
      check host { options with policy := policy } value d world := by
  have hbound : nestingBound world.heap e = nestingBound world.heap d := by
    unfold nestingBound
    rw [hdepth]
  have houtcome : Check.outcome (checkGuarded host' (fun _ _ _ => True) .exhausted
      (nestingBound world.heap d) value e ⟨.start { options with policy := policy' }, world⟩) =
        Check.outcome (checkWithin host (nestingBound world.heap d) value d
          ⟨.start { options with policy := policy }, world⟩) :=
    Scope.outcome_checkGuarded hresolve (fun _ _ _ _ => trivial) .exhausted _ hde hroot options
      world
  rw [checkGuarded_eq_checkWithin fun _ _ _ => trivial] at houtcome
  unfold check
  rw [hbound]
  exact houtcome

/-! ## Strictness -/

/-- What is mapped from what is produced is there when that is. -/
theorem Run.ofForcing_map {α β : Type} (f : α → β) (m : Forcing σ α) (world : World σ) :
    ofForcing (f <$> m) world = ((ofForcing m world).1.map f, (ofForcing m world).2) := by
  change ofForcing (EStateM.map f m) world = _
  unfold ofForcing EStateM.map
  cases m world.env <;> rfl

theorem AlikeResult.map_right {ε α β : Type} {R : α → β → Prop} {f : α → β} (h : ∀ a, R a (f a))
    (x : Except ε α) : AlikeResult R x (x.map f) := by
  cases x with
  | ok a => exact .ok (h a)
  | error fault => exact .error

namespace Scope

variable {context : Context} {policy policy' : Policy} {host : Host σ} {strict : Bool}

/-- What is produced and what is mapped from it. -/
theorem inOneWorld_runs_map {α β : Type} {f : α → β} {m : Forcing σ α} {R : α → β → Prop}
    (h : ∀ a, R a (f a)) : (across σ context policy).Runs .still (Run.ofForcing m)
      (Run.ofForcing (f <$> m)) fun _ => AlikeResult R := by
  refine inOneWorld_runs fun world => ?_
  rw [Run.ofForcing_map]
  exact ⟨rfl, .map_right h _⟩

/-- The keywords of a node correspond to those of the node with its strictness declared. -/
theorem matches_declaring (resolved : Resolved) :
    (across σ context policy).Matches host (host.declaring strict)
      (fun d e => e = d.declaring strict) .still resolved (resolved.declaring strict) where
  required := rfl
  strict := rfl
  kind := rfl
  allowed := rfl
  bounds := rfl
  require := rfl
  restrict := rfl
  either := rel_map_right fun _ _ => forall₂_map_right fun _ _ => rfl
  items := rel_map_right fun _ _ => rfl
  schema := rel_map_right fun fields _ => by
    rw [Fields.resolve_declaring]
    exact inOneWorld_runs_map fun declared => forall₂_map_right fun _ _ => ⟨rfl, rfl⟩
  fallback := option_rel_self fun fallback _ => by
    rw [Fallback.produce_declaring]
    exact inOneWorld_runs fun world => ⟨rfl, inOneWorld_value_iff.2 rfl⟩
  custom := option_rel_self fun transform _ => by
    rintro ⟨⟩ - v w hvw
    obtain rfl := inOneWorld_value_iff.1 hvw
    rw [Transform.apply_declaring]
    refine inOneWorld_runs fun world => ⟨rfl, ?_⟩
    cases (transform.apply host v world).1 with
    | ok value => exact .ok (inOneWorld_value_iff.2 rfl)
    | error reason => exact .error

theorem resolveAlike_declaring (hstrict : policy.defaultStrict = strict) :
    ResolveAlike host (host.declaring strict) (fun d e => e = d.declaring strict) policy
      policy' := by
  rintro d _ rfl context
  rw [Definition.resolve_declaring hstrict]
  exact inOneWorld_runs_map fun resolved => matches_declaring resolved

end Scope

/-- **The policy on strictness is the same as writing it out.**  A check under a policy comes to
the same as the check, under any policy on strictness, of the definition in which every node
that says nothing else says what the policy does. -/
theorem check_declaring (host : Host σ) (options : Options) (strict other : Bool) (value : Value)
    (definition : Definition) (world : World σ) :
    check (host.declaring strict)
        { options with policy := { options.policy with defaultStrict := other } } value
        (definition.declaring strict) world =
      check host { options with policy := { options.policy with defaultStrict := strict } } value
        definition world := by
  have hresolve : Scope.ResolveAlike host (host.declaring strict)
      (fun d e => e = d.declaring strict) { options.policy with defaultStrict := strict }
      { options.policy with defaultStrict := other } := Scope.resolveAlike_declaring rfl
  have hdepth : (definition.declaring strict).depth = definition.depth :=
    definition.depth_declaring
  exact check_of_resolveAlike hresolve rfl hdepth (fun _ => rfl) options world

/-! ## Defaults for the value as a whole -/

theorem Scope.resolveAlike_self {policy policy' : Policy} {host : Host σ}
    (hstrict : policy.defaultStrict = policy'.defaultStrict) :
    ResolveAlike host host (Definition.Same host fun _ => True) policy policy' := by
  rintro d _ ⟨rfl, hd⟩ context
  -- What is resolved hangs on the policy only in whether objects are strict.
  have hresolve : resolve host policy' d = resolve host policy d := by
    simp only [resolve, Policy.complete, hstrict]
  rw [hresolve]
  rintro ⟨⟩ - w₁ w₂ hworld
  obtain ⟨k, hjk, hworld', hresult⟩ := Scope.inOneWorld_resolve hd .still (le_refl _) w₁ w₂ hworld
  exact ⟨k, hjk, hworld', hresult.imp fun _ _ h => h.1⟩

namespace Check

variable {host : Host σ} {recurse : Recurse σ} {value : Value} {definition : Definition}
  {session : Session σ}

/-- Where one more definition may be taken up, the check comes to what is inside. -/
theorem outcome_visiting {m : Check σ Value} (hfew : ¬ maxNesting ≤ session.context.nesting) :
    outcome (visiting m session) = outcome (m ⟨session.context.visited, session.world⟩) := by
  simp only [visiting, readContext, bind, EStateM.bind, if_neg hfew, bracket, Context.visited]
  generalize m _ = r
  cases r <;> rfl

/-- The check of a node goes on from what its definition resolves to. -/
theorem node_of_resolve {resolved : Resolved} {env : σ}
    (h : resolve host session.context.options.policy definition session.world.env =
      .ok resolved env) :
    node host recurse value definition session =
      (do demands host recurse resolved (← supply host resolved value) : Check σ Value)
        ⟨session.context, ⟨session.world.heap, env⟩⟩ := by
  simp only [node, readContext, ofForcing, ofRun, Run.ofForcing, bind, EStateM.bind, h]
  rfl

theorem node_of_resolve_error {fault : DefinitionError} {env : σ}
    (h : resolve host session.context.options.policy definition session.world.env =
      .error fault env) :
    node host recurse value definition session =
      .error (.definition fault) ⟨session.context, ⟨session.world.heap, env⟩⟩ := by
  simp only [node, readContext, ofForcing, ofRun, Run.ofForcing, bind, EStateM.bind, h]
  rfl

/-- A default may not stand in for the value as a whole where the policy does not allow it. -/
theorem supply_refused {resolved : Resolved} (hfallback : resolved.node.fallback.isSome)
    (hplace : session.context.atRoot = true)
    (hrefused : session.context.options.policy.allowRootDefault = false) :
    supply host resolved .null session =
      .error (.definition (.rootDefault session.context.pathText)) session := by
  obtain ⟨fallback, hsome⟩ := Option.isSome_iff_exists.1 hfallback
  have hboth : (session.context.atRoot && !session.context.options.policy.allowRootDefault) =
      true := by
    rw [hplace, hrefused]
    rfl
  simp only [supply, hsome, readContext, bind, EStateM.bind, hboth, if_true]
  rfl

end Check

/-- The options under which a default may stand in for the value as a whole, or may not. -/
def Options.allowing (options : Options) (allowed : Bool) : Options :=
  { options with policy := { options.policy with allowRootDefault := allowed } }

section RootDefault

variable (host : Host σ) (options : Options) (value : Value) (definition : Definition)
  (world : World σ)

theorem exists_nestingBound_eq (heap : Heap) :
    ∃ depth, nestingBound heap definition = depth + 1 :=
  Nat.exists_eq_add_one.2
    (Nat.lt_of_lt_of_le definition.depth_pos (depth_le_nestingBound heap definition))

/-- A check begins with the node of the definition. -/
theorem check_eq_outcome_node {depth : Nat}
    (hdepth : nestingBound world.heap definition = depth + 1) :
    check host options value definition world =
      Check.outcome (Check.node host (checkWithin host depth) value definition
        ⟨(Context.start options).visited, world⟩) := by
  unfold check
  rw [hdepth]
  have hfew : ¬ maxNesting ≤ (Context.start options).nesting := show ¬ maxNesting ≤ 0 by decide
  exact Check.outcome_visiting hfew

/-- An absent root without a default is the same under both policies. -/
theorem check_null_allowing
    (hnone : ∀ resolved env, resolve host options.policy definition world.env = .ok resolved env →
      resolved.node.fallback = none) :
    check host (options.allowing false) .null definition world =
      check host (options.allowing true) .null definition world := by
  obtain ⟨depth, hdepth⟩ := exists_nestingBound_eq definition world.heap
  rw [check_eq_outcome_node host _ _ _ _ hdepth, check_eq_outcome_node host _ _ _ _ hdepth]
  cases hresolve : resolve host options.policy definition world.env with
  | error fault env =>
    rw [Check.node_of_resolve_error hresolve, Check.node_of_resolve_error hresolve]
    rfl
  | ok resolved env =>
    have hsupply : Check.supply host resolved .null = (pure .null : Check σ Value) := by
      simp only [Check.supply, hnone resolved env hresolve]
    rw [Check.node_of_resolve hresolve, Check.node_of_resolve hresolve, hsupply]
    -- What is left is the complaint about a value that is missing.
    have hfollows : (Scope.across σ (Context.start (options.allowing true)).visited
        (options.allowing false).policy).Follows .still
          (do Check.demand (!resolved.required) .missing; return .null)
          (do Check.demand (!resolved.required) .missing; return .null)
          (Scope.across σ (Context.start (options.allowing true)).visited
            (options.allowing false).policy).value :=
      Scope.Follows.returns (Scope.inOneWorld_value_iff.2 rfl) (.demand _ _)
    exact Scope.outcome_eq_of_follows id rfl hfollows

end RootDefault

/-- **Whether a default may stand in for the value as a whole concerns an absent root alone.**
Unless the root is absent and has a default, a check comes to the same whether this is allowed
or not.  If it is absent and has one, the check that does not allow it ends with that, and
nothing but resolving the definition has been done.  And no call but the first is about an
absent value at the place of the whole, so no default of an alternative or of a field is ever
refused. -/
theorem check_allowRootDefault (host : Host σ) (options : Options) (value : Value)
    (definition : Definition) (world : World σ) :
    ((value = .null → ∀ resolved env,
        resolve host options.policy definition world.env = .ok resolved env →
          resolved.node.fallback = none) →
      check host (options.allowing false) value definition world =
        check host (options.allowing true) value definition world) ∧
    (value = .null → ∀ resolved env,
      resolve host options.policy definition world.env = .ok resolved env →
        resolved.node.fallback.isSome →
          check host (options.allowing false) value definition world =
            (.error (.definition (.rootDefault options.root)), ⟨world.heap, env⟩)) ∧
    ∀ refusal, Check.outcome (checkGuarded host Check.RootPresent refusal
        (nestingBound world.heap definition) value definition ⟨.start options, world⟩) =
      check host options value definition world := by
  have hsame : Definition.Same host (fun _ => True) definition definition :=
    ⟨rfl, fun _ _ => trivial⟩
  refine ⟨fun hnone => ?_, ?_, fun refusal => ?_⟩
  · by_cases hvalue : value = .null
    · subst hvalue
      exact check_null_allowing host options definition world (hnone rfl)
    · have hresolve : Scope.ResolveAlike host host (Definition.Same host fun _ => True)
          (options.allowing true).policy (options.allowing false).policy :=
        Scope.resolveAlike_self rfl
      exact check_of_resolveAlike hresolve hsame rfl
        (fun habsent => absurd ((Value.isAbsent_iff value).1 habsent) hvalue) options world
  · rintro rfl resolved env hresolve hfallback
    obtain ⟨depth, hdepth⟩ := exists_nestingBound_eq definition world.heap
    rw [check_eq_outcome_node host _ _ _ _ hdepth, Check.node_of_resolve hresolve]
    simp only [bind, EStateM.bind]
    rw [Check.supply_refused hfallback rfl rfl]
    rfl
  · have hresolve : Scope.ResolveAlike host host (Definition.Same host fun _ => True)
        options.policy options.policy := Scope.resolveAlike_self rfl
    exact Scope.outcome_checkGuarded hresolve (fun _ _ _ => id) refusal _ hsame (fun _ => rfl)
      options world

/-- Defaults of an alternative and of a field in it are taken where none may stand in for the
value as a whole, which is there; where it is not, its own default is refused. -/
theorem check_allowRootDefault_either :
    let item : Definition :=
      .node { kind := some .boolean, fallback := some (.literal (.bool true)) }
    let alternative : Definition :=
      .node { schema := some (.declared [("a", item)]), fallback := some (.literal .null) }
    let keywords : Node Definition :=
      { fallback := some (.literal (.bool true)), either := some [.shorthand .string, alternative] }
    let world : World Unit := ⟨{ containers := #[.object .empty] }, ()⟩
    (check default (Options.allowing {} false) (.object 0) (.node keywords) world).1 =
        .ok ⟨.object 0, []⟩ ∧
      check default (Options.allowing {} false) .null (.node keywords) world =
        (.error (.definition (.rootDefault "value")), world) := by
  intro item alternative keywords world
  have hpresent := (check_allowRootDefault default {} (.object 0) (.node keywords) world).1 nofun
  have habsent := (check_allowRootDefault default {} .null (.node keywords) world).2.1 rfl
    (Policy.complete {} keywords) () rfl rfl
  refine ⟨?_, habsent⟩
  rw [hpresent]
  decide +kernel

end Conform
