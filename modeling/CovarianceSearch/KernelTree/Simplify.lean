import CovarianceSearch.KernelTree

namespace CovarianceSearch.KernelTree

def isSum : KernelTree → Bool
  | .node .sum _ => true
  | _ => false

def productOrSingle : List KernelTree → KernelTree
  | [t] => t
  | ts => product ts

/-- All ways of picking one summand from every factor, the first factor varying slowest. -/
def picks : List KernelTree → List (List KernelTree)
  | [] => [[]]
  | t :: ts => (operandsFor .sum t).flatMap fun s ↦ (picks ts).map (s :: ·)

def expandProduct (factors : List KernelTree) : KernelTree :=
  if factors.any isSum then sum ((picks factors).map productOrSingle) else product factors

/-- Multiplies every product out over its sums, flattening nested sums and nested products. -/
def distribute : KernelTree → KernelTree :=
  OpTree.fold .leaf fun c ts ↦ match c with
    | .sum => sum ts
    | .product => expandProduct ts
    | .changePoint => .node .changePoint ts
    | .changeWindow => .node .changeWindow ts

/-- Changes the factors of all products from the leaves up. A product that is left with a single
factor becomes that factor. -/
def changeFactors (change : List KernelTree → List KernelTree) : KernelTree → KernelTree :=
  OpTree.fold .leaf fun c ts ↦ match c with
    | .sum => sum ts
    | .product => productOrSingle (change ts)
    | .changePoint => .node .changePoint ts
    | .changeWindow => .node .changeWindow ts

/-- Keeps the first RBF factor only, behind all other factors. -/
def singleRbf (factors : List KernelTree) : List KernelTree :=
  factors.filter (· ≠ .leaf .rbf) ++ (factors.filter (· = .leaf .rbf)).take 1

def isNonStationary : KernelTree → Bool
  | .leaf k => !k.isStationary
  | .node _ _ => false

/-- White noise takes up all stationary factors that it is multiplied with. -/
def absorbIntoWhite (factors : List KernelTree) : List KernelTree :=
  if .leaf .white ∈ factors then .leaf .white :: factors.filter isNonStationary else factors

def mergeRbfs : KernelTree → KernelTree := changeFactors singleRbf

def absorbWhiteProducts : KernelTree → KernelTree := changeFactors absorbIntoWhite

/-- The form of a tree that is kept: a sum of products of base kernels, with at most one RBF factor
in a product and no stationary factor beside white noise. -/
def simplify (t : KernelTree) : KernelTree := absorbWhiteProducts (mergeRbfs (distribute t))

end CovarianceSearch.KernelTree
