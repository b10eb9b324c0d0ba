import Conform.Decimal.Shortest

/-!
# Writing doubles

The digits of a double are laid out either plainly, with the point among zeros
and digits, or with an exponent.  Where one form ends and the other begins, and
how each is spelled, is a `Layout`; the three layouts that this library writes
are given here.

## Main definitions

* `Decimal.Layout`: the choices.
* `Decimal.Layout.write`: the text of a double.
* `Decimal.plain`, `Decimal.jsonNumber`, `Decimal.inspected`: the layouts in use.
-/

namespace Conform.Decimal

open Float.Model.UnpackedFloat (Sign)

/-- How doubles are spelled. -/
structure Layout where
  /-- Which decimal is taken half way between two. -/
  tie : Tie
  /-- The powers of ten of leading digits that are written plainly; all of them
  if none are given. -/
  plainRange : Option (Int × Int)
  /-- Whether whole numbers in plain form end in `.0`. -/
  keepPoint : Bool
  /-- What is written before an exponent that is not negative. -/
  exponentPlus : String

/-- Never an exponent, and no point in whole numbers. -/
def plain : Layout := ⟨.away, none, false, ""⟩

/-- Doubles in JSON texts: plain from `1e-5` up to `1e16`, always with a point
there, and with a signed exponent elsewhere. -/
def jsonNumber : Layout := ⟨.toEven, some (-5, 15), true, "+"⟩

/-- Doubles in inspected definitions: plain from `1e-4` up to `1e16`, always with
a point there. -/
def inspected : Layout := ⟨.away, some (-4, 15), true, ""⟩

/-- The text of `count` zeros. -/
def zeros (count : Nat) : String := String.ofList (List.replicate count '0')

/-- Digits with the point after the first `place` of them. -/
def Layout.plainText (layout : Layout) (digits : String) (place : Int) : String :=
  if place ≤ 0 then "0." ++ zeros (-place).toNat ++ digits
  else if digits.length ≤ place.toNat then
    digits ++ zeros (place.toNat - digits.length) ++ if layout.keepPoint then ".0" else ""
  else
    String.ofList (digits.toList.take place.toNat) ++ "." ++
      String.ofList (digits.toList.drop place.toNat)

/-- Digits with the point after the first of them, and the power of ten of that
one. -/
def Layout.exponentText (layout : Layout) (digits : String) (power : Int) : String :=
  let fraction := digits.toList.drop 1
  String.ofList (digits.toList.take 1) ++
    (if fraction.isEmpty then "" else "." ++ String.ofList fraction) ++ "e" ++
    if power < 0 then "-" ++ toString power.natAbs else layout.exponentPlus ++ toString power.natAbs

/-- The text of a positive double given by its significand and exponent. -/
def Layout.magnitudeText (layout : Layout) (m : Nat) (q : Int) : String :=
  let digits := shortest layout.tie m q
  let text := toString digits.coefficient
  let place := digits.exponent + text.length
  let isPlain := match layout.plainRange with
    | none => true
    | some (least, greatest) => least ≤ place - 1 ∧ place - 1 ≤ greatest
  if isPlain then layout.plainText text place else layout.exponentText text (place - 1)

/-- The sign as it is written. -/
def signText : Sign → String
  | .positive => ""
  | .negative => "-"

/-- The text of a double. -/
def Layout.write (layout : Layout) (x : Float) : String :=
  match x.toModel.unpack with
  | .notANumber => "NaN"
  | .infinity sign => signText sign ++ "inf"
  | .zero sign => signText sign ++ if layout.keepPoint then "0.0" else "0"
  | .finite sign m q _ => signText sign ++ layout.magnitudeText m q

end Conform.Decimal
