import CovarianceSearch.KernelTree.Validity
import CovarianceSearch.Scalar

namespace CovarianceSearch

/-- A base kernel with values for its parameters, in the order of its record. -/
structure Component (R : Type) where
  kernel : BaseKernel
  params : List R

/-- Sums and products of covariance functions whose parameters have values. -/
abbrev Kernel (R : Type) := OpTree Operation (Component R)

open Scalar

variable {R : Type} [Scalar R]

namespace Component

def standard (k : BaseKernel) : Component R := ⟨k, k.spec.parameters.map fun _ ↦ one⟩

def param (f : Component R) (i : Nat) : R := f.params.getD i one

def variance (f : Component R) : R := f.param 0

def scaledDistance (f : Component R) (a b : R) : R := Scalar.abs (a - b) / f.param 1

def cosAngle (f : Component R) (a b : R) : R :=
  let weight := f.param 1
  let bias := f.param 2
  let norm := sqrt ((weight * a * a + bias) * (weight * b * b + bias))
  if zero < norm then clamp (-one) one ((weight * a * b + bias) / norm) else one

/-- The covariance of the function values at `a` and `b`. White noise alone asks whether they are
the same observation. -/
def covariance (f : Component R) (a b : R) (same : Bool) : R :=
  match f.kernel with
  | .white => if same then f.variance else zero
  | .constant => f.variance
  | .linear => f.variance * a * b
  | .polynomial degree => powInt (f.variance * a * b + f.param 1) degree.toInt32.toInt
  | .rbf =>
    let r := f.scaledDistance a b
    f.variance * exp (-half * r * r)
  | .periodic =>
    let s := sin (pi * Scalar.abs (a - b) / f.param 2) / f.param 1
    f.variance * exp (-half * s * s)
  | .cosine => f.variance * cos (f.scaledDistance a b)
  | .matern12 => f.variance * exp (-f.scaledDistance a b)
  | .matern32 =>
    let z := sqrtThree * f.scaledDistance a b
    f.variance * (one + z) * exp (-z)
  | .matern52 =>
    let r := f.scaledDistance a b
    let z := sqrtFive * r
    f.variance * (one + z + ofNat 5 / ofNat 3 * r * r) * exp (-z)
  | .rationalQuadratic =>
    let r := f.scaledDistance a b
    let alpha := f.param 2
    f.variance * pow (one + r * r / (two * alpha)) (-alpha)
  | .exponential => f.variance * exp (-half * f.scaledDistance a b)
  | .arcCosine => f.variance * (pi - acos (f.cosAngle a b)) / pi

end Component

namespace Kernel

def ofTree : KernelTree → Except NodeFault (Kernel R) :=
  OpTree.fold (fun k ↦ .ok (.leaf (.standard k))) fun c parts ↦ do
    let op ← c.applied parts.length
    return .node op (← parts.mapM id)

/-- Puts the standard base kernels into a tree, operands first. Only changes are refused here, empty
combinations are not. -/
def instantiate : KernelTree → Except NodeFault (Kernel R) :=
  OpTree.fold (fun k ↦ .ok (.leaf (.standard k))) fun c parts ↦ do
    let ks ← parts.mapM id
    return .node (← c.operation) ks

def ofCheckedTree (t : KernelTree) : Except NodeFault (Kernel R) := do
  t.validate
  instantiate t

omit [Scalar R] in
def toTree : Kernel R → KernelTree := OpTree.map Operation.toCombinator Component.kernel

def covariance : Kernel R → R → R → Bool → R :=
  OpTree.fold Component.covariance fun op parts a b same ↦
    match op with
    | .sum => sum (parts.map (· a b same))
    | .product => product (parts.map (· a b same))

def gram (k : Kernel R) (xs : List R) : List R :=
  let cov := k.covariance
  xs.zipIdx.flatMap fun (a, i) ↦ xs.zipIdx.map fun (b, j) ↦
    if j ≤ i then cov a b (i = j) else cov b a false

theorem length_gram (k : Kernel R) (xs : List R) : (k.gram xs).length = xs.length * xs.length := by
  simp [gram, List.length_flatMap, List.map_const']

def childPath (path : String) (i : Nat) : String := path ++ "/" ++ toString i

def parameterPath (path : String) (k : BaseKernel) (parameter : String) : String :=
  path ++ "/" ++ k.spec.token ++ "/" ++ parameter

def parametersBelow : Kernel R → String → List (String × R) :=
  OpTree.fold
    (fun f path ↦ (f.kernel.spec.parameters.zip f.params).map fun (p, v) ↦
      (parameterPath path f.kernel p, v))
    fun _ parts path ↦ parts.zipIdx.flatMap fun (part, i) ↦ part (childPath path i)

def parameters (k : Kernel R) : List (String × R) := parametersBelow k "kernel"

/-- Changes the values that have a name. Values beyond the record of the base kernel stay. -/
def mapNamed (change : String → R → R) : List String → List R → List R
  | p :: ps, v :: vs => change p v :: mapNamed change ps vs
  | _, vs => vs

def mapParametersBelow (change : String → R → R) : Kernel R → String → Kernel R :=
  OpTree.fold
    (fun f path ↦ .leaf
      ⟨f.kernel, mapNamed (change ∘ parameterPath path f.kernel) f.kernel.spec.parameters f.params⟩)
    fun op parts path ↦ .node op (parts.zipIdx.map fun (part, i) ↦ part (childPath path i))

def mapParameters (change : String → R → R) (k : Kernel R) : Kernel R :=
  mapParametersBelow change k "kernel"

section Visit

variable {m : Type → Type} [Monad m]

/-- Goes to the values that have a name, one after another, and puts what `visit` returns in their
places. Values beyond the record of the base kernel stay. -/
def visitNamed (visit : String → R → m R) : List String → List R → m (List R)
  | p :: ps, v :: vs => do
    let w ← visit p v
    return w :: (← visitNamed visit ps vs)
  | _, vs => return vs

def visitParametersBelow (visit : String → R → m R) : Kernel R → String → m (Kernel R) :=
  OpTree.fold
    (fun f path ↦ do
      let names := f.kernel.spec.parameters
      return .leaf ⟨f.kernel, ← visitNamed (visit ∘ parameterPath path f.kernel) names f.params⟩)
    fun op parts path ↦ do
      return .node op (← parts.zipIdx.mapM fun (part, i) ↦ part (childPath path i))

def visitParameters (visit : String → R → m R) (k : Kernel R) : m (Kernel R) :=
  visitParametersBelow visit k "kernel"

end Visit

def parameterCount : Kernel R → Nat :=
  OpTree.fold (·.params.length) fun _ counts ↦ counts.foldr (· + ·) 0

/-- The variances that products have beyond one each. -/
def redundantVariances : Kernel R → Nat :=
  OpTree.fold (fun _ ↦ 0) fun op counts ↦
    match op with
    | .sum => counts.foldr (· + ·) 0
    | .product => counts.length - 1 + counts.foldr (· + ·) 0

end Kernel

end CovarianceSearch
