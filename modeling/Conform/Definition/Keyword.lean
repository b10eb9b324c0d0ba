import Conform.Definition.Error

/-!
# The vocabulary of definitions

## Main definitions

* `Keyword`: the members that a definition may have.
* `TypeName`: the types that a value may be declared to have.
* `Comparator`, `Bounds`: comparisons of numbers, and at most one bound for each.

## Main results

* `Keyword.ofText?_eq_some_iff`, `TypeName.ofText?_eq_some_iff`: a word has one spelling.
* `Bounds.get?_set`: setting a bound changes that bound alone.
-/

namespace Conform

/-! ## Keywords -/

/-- The members that a definition may have. -/
inductive Keyword where
  | optional
  | required
  | default
  | type
  | schema
  | properties
  | items
  | oneOf
  | enumeration
  | bounds
  | either
  | strict
  | require
  | restrict
  | custom
  deriving DecidableEq, Repr

namespace Keyword

/-- All keywords, in the order of the grammar. -/
def all : List Keyword :=
  [optional, required, default, type, schema, properties, items, oneOf, enumeration, bounds,
    either, strict, require, restrict, custom]

/-- The keyword as it is written. -/
def text : Keyword → String
  | optional => "optional"
  | required => "required"
  | default => "default"
  | type => "type"
  | schema => "schema"
  | properties => "properties"
  | items => "items"
  | oneOf => "in"
  | enumeration => "enum"
  | bounds => "bounds"
  | either => "either"
  | strict => "strict"
  | require => "require"
  | restrict => "restrict"
  | custom => "custom"

/-- The keyword that is written so. -/
def ofText? (name : String) : Option Keyword := all.find? fun keyword => keyword.text == name

theorem ofText?_text (keyword : Keyword) : ofText? keyword.text = some keyword := by
  cases keyword <;> rfl

/-- A keyword is read from its own spelling and from no other. -/
theorem ofText?_eq_some_iff {name : String} {keyword : Keyword} :
    ofText? name = some keyword ↔ name = keyword.text := by
  refine ⟨fun h => ?_, fun h => h ▸ ofText?_text keyword⟩
  have found := List.find?_some (p := fun keyword : Keyword => keyword.text == name) h
  exact (eq_of_beq found).symm

end Keyword

/-! ## Types -/

/-- The types that a value may be declared to have. -/
inductive TypeName where
  | string
  | number
  | boolean
  | array
  | object
  | function
  | dateTime
  deriving DecidableEq, Repr

namespace TypeName

/-- All types. -/
def all : List TypeName := [string, number, boolean, array, object, function, dateTime]

/-- The type as it is written. -/
def text : TypeName → String
  | string => "string"
  | number => "number"
  | boolean => "boolean"
  | array => "array"
  | object => "object"
  | function => "function"
  | dateTime => "datetime"

/-- The type that is written so. -/
def ofText? (name : String) : Option TypeName := all.find? fun type => type.text == name

/-- The type that is written so; any other name is a fault. -/
def ofText (name : String) : Except DefinitionError TypeName :=
  match ofText? name with
  | some type => .ok type
  | none => .error (.unknownType name)

theorem ofText?_text (type : TypeName) : ofText? type.text = some type := by
  cases type <;> rfl

theorem ofText_text (type : TypeName) : ofText type.text = .ok type := by
  rw [ofText, ofText?_text]

/-- A type is read from its own spelling and from no other. -/
theorem ofText?_eq_some_iff {name : String} {type : TypeName} :
    ofText? name = some type ↔ name = type.text := by
  refine ⟨fun h => ?_, fun h => h ▸ ofText?_text type⟩
  have found := List.find?_some (p := fun type : TypeName => type.text == name) h
  exact (eq_of_beq found).symm

end TypeName

/-! ## Bounds -/

/-- A comparison of a number with a bound. -/
inductive Comparator where
  | gt
  | gte
  | lt
  | lte
  deriving DecidableEq, Repr

namespace Comparator

/-- All comparisons, in the order in which bounds are checked. -/
def all : List Comparator := [gt, gte, lt, lte]

/-- The comparison as it is written. -/
def text : Comparator → String
  | gt => "gt"
  | gte => "gte"
  | lt => "lt"
  | lte => "lte"

/-- The comparison in words. -/
def phrase : Comparator → String
  | gt => "greater than"
  | gte => "greater than or equal to"
  | lt => "less than"
  | lte => "less than or equal to"

/-- Whether a number meets a bound; a NaN on either side never does. -/
def holds (comparator : Comparator) (x bound : Float) : Bool :=
  match comparator with
  | gt => bound < x
  | gte => bound ≤ x
  | lt => x < bound
  | lte => x ≤ bound

/-- The comparison that is written so; any other name is a fault. -/
def ofText (name : String) : Except DefinitionError Comparator :=
  match all.find? fun comparator => comparator.text == name with
  | some comparator => .ok comparator
  | none => .error (.unknownComparator name)

theorem ofText_text (comparator : Comparator) : ofText comparator.text = .ok comparator := by
  cases comparator <;> rfl

end Comparator

/-- At most one bound for each comparison. -/
structure Bounds where
  gt : Option Float := none
  gte : Option Float := none
  lt : Option Float := none
  lte : Option Float := none
  deriving DecidableEq

namespace Bounds

/-- The bound for a comparison. -/
def get? (bounds : Bounds) : Comparator → Option Float
  | .gt => bounds.gt
  | .gte => bounds.gte
  | .lt => bounds.lt
  | .lte => bounds.lte

/-- Sets the bound for a comparison. -/
def set (bounds : Bounds) (comparator : Comparator) (bound : Float) : Bounds :=
  match comparator with
  | .gt => { bounds with gt := some bound }
  | .gte => { bounds with gte := some bound }
  | .lt => { bounds with lt := some bound }
  | .lte => { bounds with lte := some bound }

/-- The bounds that are set, in the order of the comparisons. -/
def toList (bounds : Bounds) : List (Comparator × Float) :=
  Comparator.all.filterMap fun comparator =>
    (bounds.get? comparator).map fun bound => (comparator, bound)

theorem get?_set (bounds : Bounds) (comparator : Comparator) (bound : Float)
    (other : Comparator) :
    (bounds.set comparator bound).get? other =
      if comparator = other then some bound else bounds.get? other := by
  cases comparator <;> cases other <;> rfl

theorem mem_toList_iff {bounds : Bounds} {comparator : Comparator} {bound : Float} :
    (comparator, bound) ∈ bounds.toList ↔ bounds.get? comparator = some bound := by
  have hall : comparator ∈ Comparator.all := by
    cases comparator <;> decide
  simp only [toList, List.mem_filterMap, Option.map_eq_some_iff, Prod.mk.injEq]
  constructor
  · rintro ⟨_, -, _, hsome, rfl, rfl⟩
    exact hsome
  · intro hsome
    exact ⟨comparator, hall, bound, hsome, rfl, rfl⟩

end Bounds

end Conform
