namespace CovarianceSearch

/-- The arithmetic that covariances are computed in: 64-bit floats when a search runs, the real
numbers when it is reasoned about. -/
class Scalar (R : Type) extends Add R, Sub R, Mul R, Div R, Neg R, LT R where
  decLt : ∀ a b : R, Decidable (a < b)
  ofNat : Nat → R
  isFinite : R → Bool
  isNaN : R → Bool
  abs : R → R
  sqrt : R → R
  exp : R → R
  log : R → R
  sin : R → R
  cos : R → R
  acos : R → R
  pow : R → R → R
  pi : R
  sqrtThree : R
  sqrtFive : R
  logTwoPi : R

instance decidableLT {R : Type} [Scalar R] : DecidableLT R := Scalar.decLt

instance : Scalar Float where
  decLt := Float.decLt
  ofNat := Float.ofNat
  isFinite := Float.isFinite
  isNaN := Float.isNaN
  abs := Float.abs
  sqrt := Float.sqrt
  exp := Float.exp
  log := Float.log
  sin := Float.sin
  cos := Float.cos
  acos := Float.acos
  pow := Float.pow
  pi := 3.141592653589793
  sqrtThree := 1.7320508075688772
  sqrtFive := 2.23606797749979
  logTwoPi := 1.8378770664093453

namespace Scalar

variable {R : Type} [Scalar R]

def zero : R := ofNat 0

def one : R := ofNat 1

def two : R := ofNat 2

def half : R := one / two

/-- Sums run from the left and start at negative zero, the neutral element of rounded addition. -/
def sum (xs : List R) : R := xs.foldl (· + ·) (-zero)

def product (xs : List R) : R := xs.foldl (· * ·) one

def subtractProducts {ι : Type} (z : R) (ks : List ι) (f g : ι → R) : R :=
  ks.foldl (fun z k ↦ z - f k * g k) z

def clamp (low high x : R) : R :=
  if x < low then low else if high < x then high else x

/-- `acc` times the `n`-th power of `a`, by repeated squaring from the lowest bit. -/
def powersInto (acc a : R) (n : Nat) : R :=
  if n = 0 then acc
  else powersInto (if n % 2 = 1 then acc * a else acc) (a * a) (n / 2)

def powInt (a : R) (n : Int) : R :=
  if n < 0 then one / powersInto one a n.natAbs else powersInto one a n.natAbs

end Scalar

end CovarianceSearch
