import Conform.Text.Unprintable
import Conform.Json.Basic
import Conform.Decimal.Layout

/-!
# Inspected text

The form in which texts and documents are shown to someone who inspects them:
between quotes, with everything that would not show spelled out by its number.

## Main definitions

* `Text.inspect`: a text between quotes.
* `Text.inspectJson`: a document with the kinds of its parts.
-/

namespace Conform.Text

/-- A character as it is shown between quotes. -/
def inspectChar (c : Char) : List Char :=
  match c with
  | '\x00' => ['\\', '0']
  | '\t' => ['\\', 't']
  | '\r' => ['\\', 'r']
  | '\n' => ['\\', 'n']
  | '\\' => ['\\', '\\']
  | '"' => ['\\', '"']
  | c =>
    if isUnprintable c then
      ['\\', 'u', '\x7b'] ++ Nat.toDigits 16 c.toNat ++ ['\x7d']
    else [c]

/-- A text as it is shown. -/
def inspect (text : String) : String :=
  String.ofList ('"' :: (text.toList.flatMap inspectChar ++ ['"']))

/-- Parts between an opening and a closing mark. -/
def enclosed (opening closing : String) (parts : List String) : String :=
  opening ++ String.intercalate ", " parts ++ closing

/-- A list of shown parts. -/
def inspectList (parts : List String) : String := enclosed "[" "]" parts

/-- Shown parts under shown names. -/
def inspectMap (parts : List (String × String)) : String :=
  enclosed "\x7b" "\x7d" (parts.map fun part => part.1 ++ ": " ++ part.2)

/-- A part that may be missing. -/
def inspectOption : Option String → String
  | none => "None"
  | some part => enclosed "Some(" ")" [part]

/-- A truth value. -/
def inspectBool (b : Bool) : String := if b then "true" else "false"

/-- The text of a number. -/
def inspectNumber : Json.Number → String
  | .integer n => toString n
  | .real x => Decimal.jsonNumber.write x

mutual

/-- A document as it is shown, each part under the name of its kind. -/
def inspectJson : Json → String
  | .null => "Null"
  | .bool b => enclosed "Bool(" ")" [inspectBool b]
  | .number n => enclosed "Number(" ")" [inspectNumber n]
  | .string s => enclosed "String(" ")" [inspect s]
  | .array items => "Array " ++ inspectList (inspectItems items)
  | .object members => "Object " ++ inspectMap (inspectMembers members)

/-- The items of an array as they are shown. -/
def inspectItems : List Json → List String
  | [] => []
  | item :: rest => inspectJson item :: inspectItems rest

/-- The members of an object as they are shown. -/
def inspectMembers : List (String × Json) → List (String × String)
  | [] => []
  | (name, value) :: rest => (inspect name, inspectJson value) :: inspectMembers rest

end

end Conform.Text
