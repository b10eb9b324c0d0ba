import Conform.Definition.Keyword
import Conform.Json.Printer

/-!
# Violations

A violation says where a value fails and how.  Where every alternative has failed,
the violation holds what was wrong with each.

## Main definitions

* `Complaint`: the ways to fail, and their wording.
* `Violation`: a complaint in its place.
* `Violation.flatten`: all messages of a violation.
* `Violation.toJson`: a violation as a document.
-/

namespace Conform

/-- A way to fail. -/
inductive Complaint where
  /-- Nothing is there. -/
  | missing
  /-- The value is of another type. -/
  | wrongType (type : TypeName)
  /-- The value has the contents of none of the documents. -/
  | notOneOf (allowed : List Json)
  /-- The number does not meet a bound. -/
  | outOfBounds (comparator : Comparator) (bound : Float)
  /-- Every alternative fails. -/
  | noAlternative
  /-- The field is not declared and the object is strict. -/
  | undeclared
  /-- The field is there and must not be. -/
  | restricted
  /-- The value has neither items nor entries. -/
  | notIterable
  /-- The value lies inside itself. -/
  | cycle
  /-- The last step refuses the value. -/
  | refused (reason : String)

/-- The wording of a complaint. -/
def Complaint.text : Complaint → String
  | .missing => "is required"
  | .wrongType type => "is not " ++ type.text
  | .notOneOf allowed => "is not one of " ++ (Json.array allowed).render
  | .outOfBounds comparator bound =>
    "must be " ++ comparator.phrase ++ " " ++ Decimal.plain.write bound
  | .noAlternative => "does not match any valid criteria"
  | .undeclared => "is not allowed"
  | .restricted => "is restricted"
  | .notIterable => "is not iterable"
  | .cycle => "contains a reference cycle"
  | .refused reason => "is invalid: " ++ reason

/-- A complaint in its place. -/
structure Violation where
  /-- Where the value fails. -/
  path : String
  /-- How the value fails, with the place. -/
  message : String
  /-- What is wrong with each alternative. -/
  inner : List (List Violation)

namespace Violation

instance : Inhabited Violation := ⟨⟨"", "", []⟩⟩

mutual

/-- Whether two violations are the same. -/
def decEq : (v w : Violation) → Decidable (v = w)
  | ⟨path, message, inner⟩, ⟨path', message', inner'⟩ =>
    have := decEqAlternatives inner inner'
    decidable_of_iff (path = path' ∧ message = message' ∧ inner = inner')
      (Iff.of_eq (mk.injEq ..).symm)

/-- Whether the alternatives of two violations fail for the same reasons. -/
def decEqAlternatives : (xs ys : List (List Violation)) → Decidable (xs = ys)
  | [], [] => .isTrue rfl
  | [], _ :: _ => .isFalse nofun
  | _ :: _, [] => .isFalse nofun
  | x :: xs, y :: ys =>
    have := decEqList x y
    have := decEqAlternatives xs ys
    decidable_of_iff (x = y ∧ xs = ys) List.cons_eq_cons.symm

/-- Whether two lists of violations are the same. -/
def decEqList : (xs ys : List Violation) → Decidable (xs = ys)
  | [], [] => .isTrue rfl
  | [], _ :: _ => .isFalse nofun
  | _ :: _, [] => .isFalse nofun
  | x :: xs, y :: ys =>
    have := decEq x y
    have := decEqList xs ys
    decidable_of_iff (x = y ∧ xs = ys) List.cons_eq_cons.symm

end

instance : DecidableEq Violation := decEq

/-- The violation of a complaint about the value at a path. -/
def ofComplaint (path : String) (complaint : Complaint) (inner : List (List Violation)) :
    Violation :=
  ⟨path, path ++ " " ++ complaint.text, inner⟩

mutual

/-- The message and, after it, all messages of the alternatives. -/
def flatten : Violation → List String
  | ⟨_, message, inner⟩ => message :: flattenAlternatives inner

/-- All messages of the alternatives. -/
def flattenAlternatives : List (List Violation) → List String
  | [] => []
  | violations :: rest => flattenList violations ++ flattenAlternatives rest

/-- All messages of a list of violations. -/
def flattenList : List Violation → List String
  | [] => []
  | violation :: rest => violation.flatten ++ flattenList rest

end

mutual

/-- A violation as a document; alternatives are left out where there are none. -/
def toJson : Violation → Json
  | ⟨path, message, inner⟩ =>
    .object <|
      [("path", .string path), ("message", .string message)] ++
        if inner.isEmpty then [] else [("inner", .array (alternativesToJson inner))]

/-- The alternatives as documents. -/
def alternativesToJson : List (List Violation) → List Json
  | [] => []
  | violations :: rest => .array (listToJson violations) :: alternativesToJson rest

/-- Violations as documents. -/
def listToJson : List Violation → List Json
  | [] => []
  | violation :: rest => violation.toJson :: listToJson rest

end

end Violation

/-- Why a value is not accepted, or a check does not come to an end. -/
inductive ValidationError where
  /-- The definition is at fault. -/
  | definition (fault : DefinitionError)
  /-- The first violation of a check that stops there. -/
  | assertion (violation : Violation)
  /-- All violations of a value that was to be accepted. -/
  | rejected (violations : List Violation)
  /-- Definitions nest too deeply in the value. -/
  | exhausted
  deriving DecidableEq

namespace ValidationError

/-- The wording of an error. -/
def message : ValidationError → String
  | .definition fault => fault.message
  | .assertion violation => "assertion failed: " ++ violation.message
  | .rejected violations =>
    "validation failed: " ++ String.intercalate "; " (violations.map Violation.message)
  | .exhausted => "definitions nest too deeply"

/-- The violations that an error reports. -/
def violations : ValidationError → List Violation
  | .definition _ => []
  | .assertion violation => [violation]
  | .rejected violations => violations
  | .exhausted => []

end ValidationError

end Conform
