import CovarianceSearch.Model
import CovarianceSearch.SquareMatrix

namespace CovarianceSearch.Likelihood

open Scalar SquareMatrix

variable {R : Type} [Scalar R] {n : Nat}

def gramMatrix (k : Kernel R) (xs : List R) : SquareMatrix R xs.length :=
  ⟨⟨(k.gram xs).toArray, k.length_gram xs⟩⟩

def covarianceMatrix (k : Kernel R) (noise : R) (xs : List R) : SquareMatrix R xs.length :=
  (List.finRange xs.length).foldl (fun a i ↦ a.put i i (a.entry i i + noise)) (gramMatrix k xs)

/-- Puts the entry of the factor in the place of the entry of row `i` and column `j`, unless it is
on the diagonal and its pivot is not positive. -/
def factorAt? (i : Fin n) (a : SquareMatrix R n) (j : Fin n) : Option (SquareMatrix R n) :=
  let rest := subtractProducts (a.entry i j) (before j) (a.entry i) (a.entry j)
  if i = j then
    if isFinite rest && decide (zero < rest) then some (a.put i i (sqrt rest)) else none
  else some (a.put i j (rest / a.entry j j))

def factorRow? (a : SquareMatrix R n) (i : Fin n) : Option (SquareMatrix R n) := do
  let a ← ((List.finRange n).take (i + 1)).foldlM (factorAt? i) a
  return (behind i).foldl (fun a j ↦ a.put i j zero) a

/-- The lower triangular matrix whose product with its transpose is the symmetric matrix `a`, of
which only the lower triangle is read. There is one for positive definite matrices only. -/
def cholesky? (a : SquareMatrix R n) : Option (SquareMatrix R n) :=
  (List.finRange n).foldlM factorRow? a

def putUnknown (z : Vector R n) (i : Fin n) (v : R) : Vector R n := z.set i v

def solveRow? (l : SquareMatrix R n) (ys : List R) (z : Vector R n) (i : Fin n) :
    Option (Vector R n) := do
  let y ← ys[i.val]?
  return putUnknown z i (subtractProducts y (before i) (l.entry i) z.get / l.entry i i)

def solveLower? (l : SquareMatrix R n) (ys : List R) : Option (Vector R n) :=
  (List.finRange n).foldlM (solveRow? l ys) (.replicate n zero)

def solveColumn (l : SquareMatrix R n) (z alpha : Vector R n) (i : Fin n) : Vector R n :=
  putUnknown alpha i
    (subtractProducts (z.get i) (behind i) (l.entry · i) alpha.get / l.entry i i)

def solveUpper (l : SquareMatrix R n) (z : Vector R n) : Vector R n :=
  (List.finRange n).reverse.foldl (solveColumn l z) (.replicate n zero)

/-- Half of `yᵀ A⁻¹ y + log det A + n log 2π`, where `l` is the Cholesky factor of `A` and `z`
solves the lower system for `y`. -/
def lossOfFactor (l : SquareMatrix R n) (ys : List R) (z : Vector R n) : R :=
  let quadratic := sum (List.zipWith (· * ·) ys (solveUpper l z).toList)
  let logDeterminant := sum ((List.finRange n).map fun i ↦ log (l.entry i i)) * two
  half * (quadratic + logDeterminant + ofNat n * logTwoPi)

def lossOf (a : SquareMatrix R n) (ys : List R) : Except Fault R :=
  match cholesky? a with
  | none => .error (.fit .notPositiveDefinite)
  | some l =>
    match solveLower? l ys with
    | none => .error .missingTarget
    | some z =>
      let loss := lossOfFactor l ys z
      if isFinite loss then .ok loss else .error (.fit .nonFinite)

def negativeLogLikelihood (k : Kernel R) (noise : R) (xs ys : List R) : Except Fault R :=
  if xs.isEmpty then .error (.fit .emptyData) else lossOf (covarianceMatrix k noise xs) ys

end CovarianceSearch.Likelihood
