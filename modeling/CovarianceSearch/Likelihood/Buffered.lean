import CovarianceSearch.Likelihood

namespace CovarianceSearch

inductive Buffer where
  | inputs
  | targets
  | covariances
  | forward
  | backward
  deriving DecidableEq

/-- How a computation on buffers can end without an answer: in a failed fit, or at an access behind
the end of a buffer. -/
inductive Halt where
  | fit (e : FitError)
  | outOfBounds (buffer : Buffer) (index : Nat)
  deriving DecidableEq

/-- An input without a target is found out at an access behind the last of the targets. -/
def Fault.toHalt (targets : Nat) : Fault → Halt
  | .fit e => .fit e
  | .missingTarget => .outOfBounds .targets targets

namespace Likelihood.Buffered

open Scalar

variable {R : Type}

def read (buffer : Buffer) (cells : Array R) (i : Nat) : Except Halt R :=
  if h : i < cells.size then .ok cells[i] else .error (.outOfBounds buffer i)

def write (buffer : Buffer) (cells : Array R) (i : Nat) (v : R) : Except Halt (Array R) :=
  if h : i < cells.size then .ok (cells.set i v) else .error (.outOfBounds buffer i)

variable [Scalar R]

def subtractProducts (z : R) (ks : List Nat) (f g : Nat → Except Halt R) : Except Halt R :=
  ks.foldlM (fun z k ↦ return z - (← f k) * (← g k)) z

/-- Computes the covariance of two points once and puts it on both sides of the diagonal. -/
def enterPair (k : Kernel R) (xs : Array R) (i : Nat) (a : Array R) (j : Nat) :
    Except Halt (Array R) := do
  let v := k.covariance (← read .inputs xs i) (← read .inputs xs j) (i = j)
  write .covariances (← write .covariances a (i * xs.size + j) v) (j * xs.size + i) v

def gram (k : Kernel R) (xs : Array R) : Except Halt (Array R) :=
  (List.range xs.size).foldlM (fun a i ↦ (List.range (i + 1)).foldlM (enterPair k xs i) a)
    (.replicate (xs.size * xs.size) zero)

def addNoise (noise : R) (n : Nat) (a : Array R) : Except Halt (Array R) :=
  (List.range n).foldlM
    (fun a i ↦ do
      let variance ← read .covariances a (i * n + i)
      write .covariances a (i * n + i) (variance + noise))
    a

def factorAt (n i : Nat) (a : Array R) (j : Nat) : Except Halt (Array R) := do
  let rest ← subtractProducts (← read .covariances a (i * n + j)) (List.range j)
    (fun k ↦ read .covariances a (i * n + k)) (fun k ↦ read .covariances a (j * n + k))
  if i = j then
    if isFinite rest && decide (zero < rest) then write .covariances a (i * n + i) (sqrt rest)
    else throw (.fit .notPositiveDefinite)
  else
    let pivot ← read .covariances a (j * n + j)
    write .covariances a (i * n + j) (rest / pivot)

def factorRow (n : Nat) (a : Array R) (i : Nat) : Except Halt (Array R) := do
  let a ← (List.range (i + 1)).foldlM (factorAt n i) a
  (List.range' (i + 1) (n - (i + 1))).foldlM (fun a j ↦ write .covariances a (i * n + j) zero) a

def cholesky (n : Nat) (a : Array R) : Except Halt (Array R) :=
  (List.range n).foldlM (factorRow n) a

def solveRow (n : Nat) (l ys z : Array R) (i : Nat) : Except Halt (Array R) := do
  let rest ← subtractProducts (← read .targets ys i) (List.range i)
    (fun k ↦ read .covariances l (i * n + k)) (fun k ↦ read .forward z k)
  let pivot ← read .covariances l (i * n + i)
  write .forward z i (rest / pivot)

def solveLower (n : Nat) (l ys : Array R) : Except Halt (Array R) :=
  (List.range n).foldlM (solveRow n l ys) (.replicate n zero)

def solveColumn (n : Nat) (l z alpha : Array R) (i : Nat) : Except Halt (Array R) := do
  let rest ← subtractProducts (← read .forward z i) (List.range' (i + 1) (n - (i + 1)))
    (fun k ↦ read .covariances l (k * n + i)) (fun k ↦ read .backward alpha k)
  let pivot ← read .covariances l (i * n + i)
  write .backward alpha i (rest / pivot)

def solveUpper (n : Nat) (l z : Array R) : Except Halt (Array R) :=
  (List.range n).reverse.foldlM (solveColumn n l z) (.replicate n zero)

def lossOfFactor (n : Nat) (l ys z : Array R) : Except Halt R := do
  let alpha ← solveUpper n l z
  let logs ← (List.range n).mapM fun i ↦ log <$> read .covariances l (i * n + i)
  let quadratic := sum (List.zipWith (· * ·) ys.toList alpha.toList)
  return half * (quadratic + sum logs * two + ofNat n * logTwoPi)

/-- The loss as it is computed on buffers that do not carry their sizes in their types. Matrices are
kept row after row, and only the access itself finds out whether an index is in bounds. -/
def negativeLogLikelihood (k : Kernel R) (noise : R) (xs ys : Array R) : Except Halt R := do
  let n := xs.size
  if n = 0 then throw (.fit .emptyData)
  let l ← cholesky n (← addNoise noise n (← gram k xs))
  let loss ← lossOfFactor n l ys (← solveLower n l ys)
  if isFinite loss then return loss else throw (.fit .nonFinite)

end Likelihood.Buffered

end CovarianceSearch
