import CovarianceSearch.Decimal.Text
import CovarianceSearch.Scalar

namespace CovarianceSearch

open Scalar

inductive BoundFault where
  | rescaling (maximum : Option Float) (bound : Float)
  | upperBound (bound : Float)

def BoundFault.message : BoundFault → String
  | .rescaling maximum bound =>
    "cannot rescale x with maximum " ++ (maximum.elim "-inf" Decimal.Style.plain.text) ++
      " to upper bound " ++ Decimal.Style.plain.text bound
  | .upperBound bound => "upper bound must be positive, got " ++ Decimal.Style.plain.text bound

namespace Series

variable {R : Type} [Scalar R]

/-- The greatest number of a list, the first of several zeros. -/
def maximum? (xs : List R) : Option R :=
  match xs.filter fun x ↦ !isNaN x with
  | [] => none
  | x :: rest => some (rest.foldl (fun greatest y ↦ if greatest < y then y else greatest) x)

/-- Stretches or shrinks `xs` so that the greatest number becomes `bound`. Without a number in it
a list stays as it is. -/
def rescale? (xs : List R) (bound : R) : Option (List R) :=
  if xs.isEmpty || !decide (zero < bound) then none
  else match maximum? xs with
    | none => some xs
    | some greatest =>
      if greatest < zero ∨ zero < greatest then some (xs.map fun x ↦ bound * x / greatest)
      else none

def mean (ys : List R) : R := sum ys / ofNat ys.length

def centre (ys : List R) : List R :=
  let m := mean ys
  ys.map (· - m)

/-- The deviation below which a series counts as constant. -/
def tolerance : R := one / ofNat 100000000

/-- Shifts a series to mean zero and scales it to deviation one, unless it is constant. -/
def standardize (ys : List R) : List R :=
  let centred := centre ys
  let deviation := sqrt (mean (centred.map fun y ↦ y * y))
  if tolerance < Scalar.abs deviation then centred.map (· / deviation) else centred

def rescale (xs : List Float) (bound : Float) : Except BoundFault (List Float) :=
  match rescale? xs bound with
  | some ys => .ok ys
  | none => .error (.rescaling (maximum? xs) bound)

end Series

end CovarianceSearch
