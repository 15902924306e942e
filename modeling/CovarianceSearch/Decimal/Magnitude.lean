namespace CovarianceSearch.Decimal

/-- The size of a finite float: `mantissa * 2 ^ exponent`. The gap to the float below is half the
gap to the float above where `narrow` holds. -/
structure Magnitude where
  mantissa : Nat
  exponent : Int
  narrow : Bool

namespace Magnitude

def ofFloat (x : Float) : Magnitude :=
  let bits : Nat := x.toBits.toNat
  let field : Nat := (bits >>> 52) % 2048
  let fraction : Nat := bits % (1 <<< 52)
  if field = 0 then ⟨fraction, -1074, false⟩
  else ⟨(1 <<< 52) + fraction, (field : Int) - 1075, fraction = 0 && field > 1⟩

def numerator (m : Magnitude) : Nat := m.mantissa <<< m.exponent.toNat

def denominator (m : Magnitude) : Nat := 1 <<< (-m.exponent).toNat

end Magnitude

def isNegative (x : Float) : Bool := 1 <<< 63 ≤ x.toBits.toNat

/-- The nearest whole number to `n / d`, the even one of two that are equally near. -/
def roundDiv (n d : Nat) : Nat :=
  let q := n / d
  let r := n % d
  if 2 * r < d ∨ (2 * r = d ∧ q % 2 = 0) then q else q + 1

def digits (n : Nat) : List Char := Nat.toDigits 10 n

def leadingPower (n d : Nat) : Int :=
  if d ≤ n then (digits (n / d)).length - 1 else -(digits ((d - 1) / n)).length

def roundScaled (n d : Nat) (p : Int) : Nat :=
  roundDiv (n * Nat.pow 10 p.toNat) (d * Nat.pow 10 (-p).toNat)

structure Scaled where
  digits : Nat
  power : Int
  deriving DecidableEq

def Scaled.ofMagnitude (m : Magnitude) : Scaled :=
  if m.exponent < 0 then ⟨m.mantissa * Nat.pow 5 (-m.exponent).toNat, m.exponent⟩
  else ⟨m.numerator, 0⟩

def significant (count : Nat) (m : Magnitude) : Scaled :=
  let power := leadingPower m.numerator m.denominator - count + 1
  let rounded := roundScaled m.numerator m.denominator (-power)
  if rounded = Nat.pow 10 count then ⟨rounded / 10, power + 1⟩ else ⟨rounded, power⟩

end CovarianceSearch.Decimal
