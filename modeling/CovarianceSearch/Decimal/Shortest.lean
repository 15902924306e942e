import CovarianceSearch.Decimal.Magnitude

namespace CovarianceSearch.Decimal

inductive Tie where
  | up
  | even
  deriving DecidableEq

/-- Whether a decimal lies among the numbers that are rounded to the float of size `m`. The ends of
that interval belong to it where the mantissa is even. -/
def readsBack (m : Magnitude) (c : Scaled) : Bool :=
  let low := 4 * m.mantissa - (if m.narrow then 1 else 2)
  let high := 4 * m.mantissa + 2
  let unit := Nat.pow 10 (-c.power).toNat <<< (m.exponent - 2).toNat
  let value := (c.digits * Nat.pow 10 c.power.toNat) <<< (2 - m.exponent).toNat
  if m.mantissa % 2 = 0 then low * unit ≤ value && value ≤ high * unit
  else low * unit < value && value < high * unit

/-- The better of the two neighbours of a magnitude among the multiples of `10 ^ power`, if one
reads back. -/
def nearestOnGrid (tie : Tie) (m : Magnitude) (power : Int) : Option Scaled :=
  let n := m.numerator * Nat.pow 10 (-power).toNat
  let d := m.denominator * Nat.pow 10 power.toNat
  let below : Scaled := ⟨n / d, power⟩
  let above : Scaled := ⟨n / d + 1, power⟩
  match readsBack m below, readsBack m above with
  | false, false => none
  | true, false => some below
  | false, true => some above
  | true, true =>
    let r := 2 * (n % d)
    let takeBelow := r < d || (r = d && tie = .even && below.digits % 2 = 0)
    some (if takeBelow then below else above)

/-- The fewest digits that read back, and of those the nearest to a positive magnitude. -/
def shortest (tie : Tie) (m : Magnitude) : Scaled :=
  let top := leadingPower m.numerator m.denominator
  ((List.range 17).findSome? fun i : Nat ↦ nearestOnGrid tie m (top - i)).getD (.ofMagnitude m)

end CovarianceSearch.Decimal
