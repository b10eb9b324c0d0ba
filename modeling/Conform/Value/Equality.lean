import Conform.Value.Heap

/-!
# Equality of values

Values are equal when they look the same from outside: equal scalars, equal items
at every index, equal fields under every key, whatever the order of the keys.
Functions are equal only to themselves.

A pair of containers that is met again while it is being compared is taken for
equal, since no difference can show that does not show elsewhere.  All pairs on
the way down are different, so the depth of the comparison is bounded by the
number of pairs.

## Main definitions

* `Value.equal`: equality of two values.
* `Value.equalsJson`: equality of a value and a document.
-/

namespace Conform.Value

/-- Equality of two values inside the pairs of containers being compared. -/
def equalWithin (heap : Heap) : Nat → List (Ref × Ref) → Value → Value → Bool
  | 0, _, _, _ => true
  | depth + 1, entered, a, b =>
    match a, b with
    | .null, .null => true
    | .bool x, .bool y => x == y
    | .number x, .number y => x == y
    | .string s, .string t => s == t
    | .dateTime s, .dateTime t => s == t
    | .function f, .function g => f == g
    | .array r, .array s =>
      r == s || entered.contains (r, s) ||
        ((heap.items r).length == (heap.items s).length &&
          ((heap.items r).zip (heap.items s)).all fun (x, y) =>
            equalWithin heap depth ((r, s) :: entered) x y)
    | .object r, .object s =>
      r == s || entered.contains (r, s) ||
        ((heap.fields r).size == (heap.fields s).size &&
          (heap.fields r).entries.all fun (name, x) =>
            match (heap.fields s).get? name with
            | some y => equalWithin heap depth ((r, s) :: entered) x y
            | none => false)
    | _, _ => false

/-- The depth that a comparison in a heap never reaches: one more than the pairs of
containers. -/
def equalDepth (heap : Heap) : Nat := (heap.size + 1) * (heap.size + 1) + 1

/-- Equality of two values. -/
def equal (heap : Heap) (a b : Value) : Bool := equalWithin heap (equalDepth heap) [] a b

mutual

/-- Whether a value has the contents of a document. -/
def equalsJson (heap : Heap) : Json → Value → Bool
  | .null, .null => true
  | .bool b, .bool c => b == c
  | .number n, .number x => n.toFloat == x
  | .string s, .string t => s == t
  | .array items, .array ref => equalsItems heap items (heap.items ref)
  | .object members, .object ref =>
    members.length == (heap.fields ref).size && equalsMembers heap members (heap.fields ref)
  | _, _ => false

/-- Whether values have the contents of the items of an array. -/
def equalsItems (heap : Heap) : List Json → List Value → Bool
  | [], [] => true
  | item :: items, value :: values => equalsJson heap item value && equalsItems heap items values
  | _, _ => false

/-- Whether fields have the contents of the members of an object. -/
def equalsMembers (heap : Heap) : List (String × Json) → OrderedMap Value → Bool
  | [], _ => true
  | (name, member) :: members, fields =>
    (match fields.get? name with
      | some value => equalsJson heap member value
      | none => false) && equalsMembers heap members fields

end

end Conform.Value
