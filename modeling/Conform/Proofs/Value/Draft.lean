import Conform.Json.Basic
import Conform.Proofs.Value.Alike

/-!
# Drafts of values

A draft is the contents of a value that does not contain itself, without the places that
its containers have in a heap.  It is a document in which there may be functions; which
functions they are does not show.

## Main definitions

* `Draft`: the contents of a value.
* `Draft.ofJson`: the contents of the value of a document.
-/

namespace Conform

/-- The contents of a value. -/
inductive Draft where
  | null
  | bool (b : Bool)
  | number (x : Float)
  | string (s : String)
  | function
  | array (items : List Draft)
  | object (members : List (String × Draft))

/-- The member of an object; a missing one is null. -/
def Draft.member (members : Entries Draft) (name : String) : Draft :=
  (members.get? name).getD .null

namespace Draft

mutual

/-- The contents of the value of a document: a member named twice keeps its place and takes
the later contents. -/
def ofJson : Json → Draft
  | .null => .null
  | .bool b => .bool b
  | .number n => .number n.toFloat
  | .string s => .string s
  | .array items => .array (ofItems items)
  | .object members => .object (Entries.collect (ofMembers members))

/-- The contents of the values of items. -/
def ofItems : List Json → List Draft
  | [] => []
  | item :: rest => ofJson item :: ofItems rest

/-- The contents of the values of members. -/
def ofMembers : List (String × Json) → List (String × Draft)
  | [] => []
  | (name, json) :: rest => (name, ofJson json) :: ofMembers rest

end

theorem ofItems_eq_map (items : List Json) : ofItems items = items.map ofJson := by
  induction items with
  | nil => rfl
  | cons item rest ih => rw [ofItems, ih, List.map_cons]

theorem ofMembers_eq_mapValues (members : Entries Json) :
    ofMembers members = Entries.mapValues ofJson members := by
  induction members with
  | nil => rfl
  | cons member rest ih =>
    obtain ⟨name, json⟩ := member
    rw [ofMembers, ih]
    rfl

end Draft

end Conform
