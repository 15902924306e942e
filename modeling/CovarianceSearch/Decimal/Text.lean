import CovarianceSearch.Decimal.Shortest

namespace CovarianceSearch.Decimal

structure Style where
  tie : Tie
  /-- What follows a whole number. -/
  whole : String
  /-- The powers of the leading digit that are written without an exponent. -/
  positional : Int → Bool
  nonFinite : Float → String

def signText (x : Float) : String := if isNegative x then "-" else ""

def nonFiniteText (nan : String) (x : Float) : String :=
  if x.isNaN then nan else signText x ++ "inf"

namespace Style

/-- Numbers inside sentences: never an exponent. -/
def plain : Style := ⟨.up, "", fun _ ↦ true, nonFiniteText "NaN"⟩

/-- Numbers in configuration files: always with a point, never with an exponent. -/
def setting : Style := ⟨.up, ".0", fun _ ↦ true, nonFiniteText "nan"⟩

/-- Numbers in data: positional from `1e-5` to below `1e16`. -/
def data : Style := ⟨.even, ".0", fun power ↦ -5 ≤ power && power < 16, fun _ ↦ "null"⟩

end Style

def zeros (n : Nat) : List Char := List.replicate n '0'

def splitAtPoint (ds : List Char) (power : Int) : List Char × List Char :=
  if 0 ≤ power then (ds ++ zeros power.toNat, [])
  else
    let padded := zeros ((-power).toNat + 1 - ds.length) ++ ds
    padded.splitAt (padded.length - (-power).toNat)

def stripZeros (ds : List Char) : List Char := (ds.reverse.dropWhile (· = '0')).reverse

def withFraction (whole : String) (parts : List Char × List Char) : String :=
  match stripZeros parts.2 with
  | [] => String.ofList parts.1 ++ whole
  | ds => String.ofList (parts.1 ++ '.' :: ds)

def exponentText (power : Int) : String :=
  if power < 0 then "e-" ++ toString power.natAbs else "e+" ++ toString power.natAbs

def Style.magnitudeText (style : Style) (m : Magnitude) : String :=
  if m.mantissa = 0 then "0" ++ style.whole
  else
    let c := shortest style.tie m
    let ds := digits c.digits
    let leading := c.power + ds.length - 1
    if style.positional leading then withFraction style.whole (splitAtPoint ds c.power)
    else withFraction "" (splitAtPoint ds (1 - ds.length)) ++ exponentText leading

def Style.text (style : Style) (x : Float) : String :=
  if x.isFinite then signText x ++ style.magnitudeText (.ofFloat x) else style.nonFinite x

def fixed (places : Nat) (x : Float) : String :=
  if x.isFinite then
    let m := Magnitude.ofFloat x
    let parts := splitAtPoint (digits (roundScaled m.numerator m.denominator places)) (-places)
    signText x ++ String.ofList parts.1 ++
      (if places = 0 then "" else String.ofList ('.' :: parts.2))
  else nonFiniteText "NaN" x

def scientificMagnitude (count : Nat) (m : Magnitude) : String :=
  let c := significant count m
  let parts := splitAtPoint (digits c.digits) (1 - count)
  String.ofList (parts.1 ++ '.' :: parts.2) ++ "e" ++ toString (c.power + count - 1)

def scientific (count : Nat) (x : Float) : String :=
  if x.isFinite then
    let m := Magnitude.ofFloat x
    if m.mantissa = 0 then "0." ++ String.ofList (zeros (count - 1)) ++ "e0"
    else signText x ++ scientificMagnitude count m
  else nonFiniteText "NaN" x

end CovarianceSearch.Decimal
