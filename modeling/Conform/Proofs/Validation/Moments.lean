import Conform.Proofs.Calendar.Timestamps
import Conform.Proofs.Validation.Policy
import Conform.Proofs.Value.Whole
import Conform.Value.ToJson

/-!
# Moments and their encodings

A moment is encoded as a text, which is also how it is written in a document, and as a number of
milliseconds.  Checked against the type of moments either is taken for the moment that it encodes:
the text in the years that have four digits, and the number wherever the calendar is kept, since
there are not so many milliseconds that doubles could not tell them apart.  A second that has run
over within its minute shares its text with the second after it, and the text is taken for that
one.

## Main results

* `Check.moment?_write`, `Check.moment?_toMillis`: what the encodings of a moment encode.
* `check_encoded`: a check gives the moment back.
* `not_check_encoded`: but not a second that has run over within its minute.
-/

namespace Conform

variable {σ : Type}

/-! ## What is encoded -/

namespace Check

variable {value : Value} {moment : DateTime}

/-- A moment of the years that have four digits is encoded in its text. -/
theorem moment?_write (hvalid : moment.IsValid) (hfirst : 0 ≤ moment.date.year)
    (hlast : moment.date.year ≤ 9999) :
    moment? (.string (Rfc3339.write moment)) = some moment := by
  simp only [moment?, Rfc3339.readMoment?, Rfc3339.read?_write hvalid hfirst hlast]
  rfl

/-- A moment in whole milliseconds is encoded in their number. -/
theorem moment?_toMillis (hvalid : moment.IsValid)
    (hnanos : moment.nanos < DateTime.nanosPerSecond) (hwhole : moment.nanos % 1000000 = 0)
    {x : Float} (htruncate : Number.truncate? x = some moment.toMillis) :
    moment? (.number x) = some moment := by
  simp only [moment?, htruncate]
  exact DateTime.ofMillis?_toMillis hvalid.inCalendar hnanos hwhole

/-! ## What a check makes of it -/

/-- A node that declares nothing but moments takes the moment that a value encodes. -/
theorem demands_dateTime (host : Host σ) (recurse : Recurse σ) (policy : Policy)
    (h : moment? value = some moment) :
    demands host recurse (policy.complete (.ofType .dateTime)) value = pure (.dateTime moment) := by
  have hpresent : value.isAbsent = false := by
    cases value with
    | null => cases h
    | _ => rfl
  simp [demands, keywords, type, oneOf, bounds, either, schema, require, restrict, items,
    custom, Policy.complete, Node.ofType, hpresent, h]

end Check

section Whole

variable (host : Host σ) (options : Options) {world : World σ} {definition : Definition} {env : σ}
  (hunfold : definition.unfold host maxThunkChain world.env = .ok (.ofType .dateTime) env)
include hunfold

/-- Against a definition that comes to the type of moments, a value that encodes a moment is
taken for it. -/
theorem check_of_moment? {value : Value} {moment : DateTime}
    (h : Check.moment? value = some moment) :
    check host options value definition world =
      (.ok ⟨.dateTime moment, []⟩, ⟨world.heap, env⟩) := by
  have hresolve : resolve host options.policy definition world.env =
      .ok (options.policy.complete (.ofType .dateTime)) env := by
    simp only [resolve, bind, EStateM.bind, hunfold]
    rfl
  have hsupply : Check.supply host (options.policy.complete (.ofType .dateTime)) value =
      pure value := by
    cases value <;> rfl
  -- Nothing is under way yet, so the definition is taken up.
  have hfew : ¬ maxNesting ≤ (Context.start options).nesting := Nat.not_succ_le_zero _
  have hnode : ∀ recurse, Check.node host recurse value definition
      ⟨(Context.start options).visited, world⟩ =
        .ok (.dateTime moment) ⟨(Context.start options).visited, ⟨world.heap, env⟩⟩ := by
    intro recurse
    rw [Check.node_of_resolve hresolve, hsupply, pure_bind, Check.demands_dateTime host recurse _ h]
    rfl
  obtain ⟨depth, hdepth⟩ : ∃ depth, nestingBound world.heap definition = depth + 1 := ⟨_, rfl⟩
  have hrun : Check.outcome (checkWithin host (depth + 1) value definition
      ⟨.start options, world⟩) = _ := Check.outcome_visiting hfew
  rw [hnode] at hrun
  rw [check, hdepth]
  exact hrun

/-- **A check undoes both encodings of a moment** whose second runs over at the end of a minute
only: the text that is written for it in a document, in the years that have four digits, and the
number of its milliseconds, if these are whole; the double of that number equals it and drops
nothing. -/
theorem check_encoded {moment : DateTime} (hvalid : moment.IsValid) :
    (0 ≤ moment.date.year → moment.date.year ≤ 9999 →
      (Value.dateTime moment).toJson world.heap = .string (Rfc3339.write moment) ∧
        check host options (.string (Rfc3339.write moment)) definition world =
          (.ok ⟨.dateTime moment, []⟩, ⟨world.heap, env⟩)) ∧
    (moment.nanos < DateTime.nanosPerSecond → moment.nanos % 1000000 = 0 →
      Number.safeWhole? (Number.ofInt moment.toMillis) = some moment.toMillis ∧
        Number.truncate? (Number.ofInt moment.toMillis) = some moment.toMillis ∧
        check host options (.number (Number.ofInt moment.toMillis)) definition world =
          (.ok ⟨.dateTime moment, []⟩, ⟨world.heap, env⟩)) := by
  constructor
  · intro hfirst hlast
    exact ⟨rfl, check_of_moment? host options hunfold (Check.moment?_write hvalid hfirst hlast)⟩
  · intro hnanos hwhole
    have hsafe := Number.safeWhole?_ofInt hvalid.natAbs_toMillis_lt
    have htruncate := Number.truncate?_of_whole? (Option.filter_eq_some_iff.1 hsafe).1
    exact ⟨hsafe, htruncate, check_of_moment? host options hunfold
      (Check.moment?_toMillis hvalid hnanos hwhole htruncate)⟩

end Whole

/-- A leap day of a full century, and a leap second. -/
theorem check_encoded_leap :
    let host : Host Unit := default
    let world : World Unit := ⟨{}, ()⟩
    let leapDay : DateTime := ⟨951825599, 250000000⟩
    let leapSecond : DateTime := ⟨1483228799, 1500000000⟩
    check host {} (.string "2000-02-29T11:59:59.250+00:00") (.shorthand .dateTime) world =
        (.ok ⟨.dateTime leapDay, []⟩, world) ∧
      check host {} (.number (Number.ofInt 951825599250)) (.node (.ofType .dateTime)) world =
        (.ok ⟨.dateTime leapDay, []⟩, world) ∧
      check host {} (.string "2016-12-31T23:59:60.500+00:00") (.shorthand .dateTime) world =
        (.ok ⟨.dateTime leapSecond, []⟩, world) := by
  intro host world leapDay leapSecond
  have hday : leapDay.IsValid := ⟨by decide, by decide, by decide⟩
  have hsecond : leapSecond.IsValid := ⟨by decide, by decide, by decide⟩
  have htype : (Definition.shorthand .dateTime).unfold host maxThunkChain world.env =
      .ok (.ofType .dateTime) () := rfl
  have hnode : (Definition.node (.ofType .dateTime)).unfold host maxThunkChain world.env =
      .ok (.ofType .dateTime) () := rfl
  have hdayText : Rfc3339.write leapDay = "2000-02-29T11:59:59.250+00:00" := by decide +kernel
  have hsecondText : Rfc3339.write leapSecond = "2016-12-31T23:59:60.500+00:00" := by
    decide +kernel
  have hdayMillis : leapDay.toMillis = 951825599250 := by decide
  obtain ⟨-, htext⟩ := (check_encoded host {} htype hday).1 (by decide) (by decide)
  obtain ⟨-, -, hmillis⟩ := (check_encoded host {} hnode hday).2 (by decide) (by decide)
  obtain ⟨-, htext'⟩ := (check_encoded host {} htype hsecond).1 (by decide) (by decide)
  exact ⟨hdayText ▸ htext, hdayMillis ▸ hmillis, hsecondText ▸ htext'⟩

/-- The tenth second has run over by half a second, and not at the end of its minute.  What is
written for it is half past the eleventh, and is taken for that. -/
theorem not_check_encoded :
    let host : Host Unit := default
    let world : World Unit := ⟨{}, ()⟩
    let overrun : DateTime := ⟨10, 1500000000⟩
    let later : DateTime := ⟨11, 500000000⟩
    overrun.inCalendar = true ∧ overrun.nanos < 2 * DateTime.nanosPerSecond ∧
      overrun.date.year = 1970 ∧
      (Value.dateTime overrun).toJson world.heap = .string "1970-01-01T00:00:11.500+00:00" ∧
      check host {} (.string "1970-01-01T00:00:11.500+00:00") (.shorthand .dateTime) world =
        (.ok ⟨.dateTime later, []⟩, world) ∧
      later ≠ overrun := by
  intro host world overrun later
  have hlater : later.IsValid := ⟨by decide, by decide, by decide⟩
  have htext : Rfc3339.write later = "1970-01-01T00:00:11.500+00:00" := by decide +kernel
  have hover : overrun = ⟨10, later.nanos + DateTime.nanosPerSecond⟩ := by decide
  have hsame : Rfc3339.write overrun = Rfc3339.write later :=
    hover ▸ Rfc3339.write_overrun (by decide) later.nanos
  have hmoment := Check.moment?_write hlater (by decide) (by decide)
  have htype : (Definition.shorthand .dateTime).unfold host maxThunkChain world.env =
      .ok (.ofType .dateTime) () := rfl
  have hread := check_of_moment? host {} htype (htext ▸ hmoment)
  have hwritten : (Value.dateTime overrun).toJson world.heap =
      .string "1970-01-01T00:00:11.500+00:00" := congrArg Json.string (hsame.trans htext)
  exact ⟨by decide, by decide, by decide, hwritten, hread, by decide⟩

end Conform
