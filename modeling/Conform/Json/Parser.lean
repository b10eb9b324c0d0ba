import Conform.Json.Basic

/-!
# Reading JSON documents

A reader for the JSON grammar that keeps the order of members.  An object that
repeats a name keeps the place of the first and the value of the last.

An integer literal stays an integer when it fits a signed or unsigned word of 64
bits; every other number, and a negative zero, becomes the nearest double.  A
number too large for a double, a lone surrogate and a bare control character in a
string are refused.

## Main definitions

* `Json.parse?`: the document of a text, if it is one.
-/

namespace Conform.Json

namespace Reader

/-- Skips blanks. -/
def skipBlanks : List Char → List Char
  | [] => []
  | c :: rest =>
    if c = ' ' ∨ c = '\n' ∨ c = '\r' ∨ c = '\t' then skipBlanks rest else c :: rest

/-- The longest run of decimal digits, and the rest. -/
def spanDigits (cs : List Char) : List Char × List Char := cs.span Char.isDigit

/-- The number that a run of decimal digits stands for. -/
def digitsValue (digits : List Char) : Nat :=
  digits.foldl (fun n c => 10 * n + (c.toNat - '0'.toNat)) 0

/-- The value of a hexadecimal digit. -/
def hexValue? (c : Char) : Option Nat :=
  if '0' ≤ c ∧ c ≤ '9' then some (c.toNat - '0'.toNat)
  else if 'a' ≤ c ∧ c ≤ 'f' then some (c.toNat - 'a'.toNat + 10)
  else if 'A' ≤ c ∧ c ≤ 'F' then some (c.toNat - 'A'.toNat + 10)
  else none

/-- The value of four hexadecimal digits. -/
def hexUnit? (a b c d : Char) : Option Nat := do
  return (((← hexValue? a) * 16 + (← hexValue? b)) * 16 + (← hexValue? c)) * 16 + (← hexValue? d)

/-- Whether a 16-bit unit opens a surrogate pair. -/
def isHighSurrogate (unit : Nat) : Bool := 0xD800 ≤ unit ∧ unit < 0xDC00

/-- Whether a 16-bit unit closes a surrogate pair. -/
def isLowSurrogate (unit : Nat) : Bool := 0xDC00 ≤ unit ∧ unit < 0xE000

/-- The character of an escape by letter. -/
def letterEscape? : Char → Option Char
  | '"' => some '"'
  | '\\' => some '\\'
  | '/' => some '/'
  | 'b' => some '\x08'
  | 'f' => some '\x0c'
  | 'n' => some '\n'
  | 'r' => some '\r'
  | 't' => some '\t'
  | _ => none

/-- Reads one escape after its backslash. -/
def escape? : List Char → Option (Char × List Char)
  | 'u' :: a :: b :: c :: d :: rest => do
    let unit ← hexUnit? a b c d
    if isLowSurrogate unit then none
    else if isHighSurrogate unit then
      match rest with
      | '\\' :: 'u' :: e :: f :: g :: h :: rest =>
        let second ← hexUnit? e f g h
        if isLowSurrogate second then
          some (Char.ofNat (0x10000 + (unit - 0xD800) * 0x400 + (second - 0xDC00)), rest)
        else none
      | _ => none
    else some (Char.ofNat unit, rest)
  | c :: rest => (letterEscape? c).map fun c => (c, rest)
  | [] => none

/-- Reads the rest of a string up to its closing quote; `done` holds the
characters so far, the last first. -/
def stringBody? : Nat → List Char → List Char → Option (String × List Char)
  | 0, _, _ => none
  | fuel + 1, done, cs =>
    match cs with
    | '"' :: rest => some (String.ofList done.reverse, rest)
    | '\\' :: rest => do
      let (c, rest) ← escape? rest
      stringBody? fuel (c :: done) rest
    | c :: rest => if c.toNat < 0x20 then none else stringBody? fuel (c :: done) rest
    | [] => none

/-- Reads a fraction, if there is one. -/
def fraction? : List Char → Option (Option (List Char) × List Char)
  | '.' :: rest =>
    let (digits, rest) := spanDigits rest
    if digits.isEmpty then none else some (some digits, rest)
  | cs => some (none, cs)

/-- Reads the digits of an exponent after its sign. -/
def exponentDigits? (negative : Bool) (cs : List Char) : Option (Option Int × List Char) :=
  let (digits, rest) := spanDigits cs
  if digits.isEmpty then none
  else
    let n := digitsValue digits
    some (some (if negative then -n else n), rest)

/-- Reads an exponent, if there is one. -/
def exponent? : List Char → Option (Option Int × List Char)
  | c :: rest =>
    if c = 'e' ∨ c = 'E' then
      match rest with
      | '+' :: rest => exponentDigits? false rest
      | '-' :: rest => exponentDigits? true rest
      | rest => exponentDigits? false rest
    else some (none, c :: rest)
  | [] => some (none, [])

/-- The integers that stay integers. -/
def isWord (n : Int) : Bool := -(Nat.pow 2 63 : Nat) ≤ n ∧ n < (Nat.pow 2 64 : Nat)

/-- The number of a literal's parts, unless it is too large. -/
def numberOfParts? (negative : Bool) (digits : List Char) (fraction : Option (List Char))
    (exponent : Option Int) : Option Number :=
  let whole := digitsValue digits
  let signed : Int := if negative then -whole else whole
  -- A negative zero keeps its sign only as a double.
  if fraction.isNone ∧ exponent.isNone ∧ isWord signed ∧ ¬(negative ∧ whole = 0) then
    some (.integer signed)
  else
    let fraction := fraction.getD []
    let magnitude := Number.ofDecimal (digitsValue (digits ++ fraction))
      (exponent.getD 0 - fraction.length)
    if magnitude.isFinite then some (.real (if negative then -magnitude else magnitude)) else none

/-- Reads a number without its sign. -/
def unsigned? (negative : Bool) (cs : List Char) : Option (Number × List Char) := do
  let (digits, rest) := spanDigits cs
  if digits.isEmpty ∨ (digits.head? = some '0' ∧ digits.length ≠ 1) then none
  else
    let (fraction, rest) ← fraction? rest
    let (exponent, rest) ← exponent? rest
    let n ← numberOfParts? negative digits fraction exponent
    return (n, rest)

/-- Reads a number. -/
def number? : List Char → Option (Number × List Char)
  | '-' :: rest => unsigned? true rest
  | cs => unsigned? false cs

mutual

/-- Reads a document and leaves the text after it. -/
def value? : Nat → List Char → Option (Json × List Char)
  | 0, _ => none
  | fuel + 1, cs =>
    match skipBlanks cs with
    | 'n' :: 'u' :: 'l' :: 'l' :: rest => some (.null, rest)
    | 't' :: 'r' :: 'u' :: 'e' :: rest => some (.bool true, rest)
    | 'f' :: 'a' :: 'l' :: 's' :: 'e' :: rest => some (.bool false, rest)
    | '"' :: rest => do
      let (s, rest) ← stringBody? (rest.length + 1) [] rest
      return (.string s, rest)
    | '[' :: rest =>
      match skipBlanks rest with
      | ']' :: rest => some (.array [], rest)
      | rest => do
        let (items, rest) ← items? fuel rest
        return (.array items, rest)
    | '\x7b' :: rest =>
      match skipBlanks rest with
      | '\x7d' :: rest => some (.object [], rest)
      | rest => do
        let (members, rest) ← members? fuel rest
        return (.object (Entries.collect members), rest)
    | rest => do
      let (n, rest) ← number? rest
      return (.number n, rest)

/-- Reads the items of an array up to its closing bracket. -/
def items? : Nat → List Char → Option (List Json × List Char)
  | 0, _ => none
  | fuel + 1, cs => do
    let (first, rest) ← value? fuel cs
    match skipBlanks rest with
    | ',' :: rest =>
      let (more, rest) ← items? fuel rest
      return (first :: more, rest)
    | ']' :: rest => return ([first], rest)
    | _ => none

/-- Reads the members of an object up to its closing brace. -/
def members? : Nat → List Char → Option (List (String × Json) × List Char)
  | 0, _ => none
  | fuel + 1, cs =>
    match skipBlanks cs with
    | '"' :: rest => do
      let (name, rest) ← stringBody? (rest.length + 1) [] rest
      match skipBlanks rest with
      | ':' :: rest =>
        let (first, rest) ← value? fuel rest
        match skipBlanks rest with
        | ',' :: rest =>
          let (more, rest) ← members? fuel rest
          return ((name, first) :: more, rest)
        | '\x7d' :: rest => return ([(name, first)], rest)
        | _ => none
      | _ => none
    | _ => none

end

end Reader

/-- The document of a text that holds one and nothing else but blanks.  Every
step of the reader consumes a character, so the length of the text bounds them. -/
def parse? (text : String) : Option Json := do
  let cs := text.toList
  let (json, rest) ← Reader.value? (2 * cs.length + 2) cs
  if (Reader.skipBlanks rest).isEmpty then some json else none

end Conform.Json
