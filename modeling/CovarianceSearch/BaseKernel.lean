import CovarianceSearch.Decimal.Numeral

namespace CovarianceSearch

inductive BaseKernel where
  | white
  | constant
  | linear
  | polynomial (degree : UInt32)
  | rbf
  | periodic
  | cosine
  | matern12
  | matern32
  | matern52
  | rationalQuadratic
  | arcCosine
  | exponential
  deriving DecidableEq

namespace BaseKernel

structure Spec where
  token : String
  title : String
  stationary : Bool
  parameters : List String

def spec : BaseKernel → Spec
  | .white => ⟨"white", "White", true, ["variance"]⟩
  | .constant => ⟨"constant", "Constant", true, ["variance"]⟩
  | .linear => ⟨"linear", "Linear", false, ["variance"]⟩
  | .polynomial _ => ⟨"polynomial", "Polynomial", false, ["variance", "offset"]⟩
  | .rbf => ⟨"rbf", "RBF", true, ["variance", "lengthscales"]⟩
  | .periodic => ⟨"periodic", "Periodic", true, ["variance", "lengthscales", "period"]⟩
  | .cosine => ⟨"cosine", "Cosine", true, ["variance", "lengthscales"]⟩
  | .matern12 => ⟨"matern12", "Matern12", true, ["variance", "lengthscales"]⟩
  | .matern32 => ⟨"matern32", "Matern32", true, ["variance", "lengthscales"]⟩
  | .matern52 => ⟨"matern52", "Matern52", true, ["variance", "lengthscales"]⟩
  | .rationalQuadratic =>
    ⟨"rationalquadratic", "RationalQuadratic", true, ["variance", "lengthscales", "alpha"]⟩
  | .arcCosine =>
    ⟨"arccosine", "ArcCosine", false, ["variance", "weight_variances", "bias_variance"]⟩
  | .exponential => ⟨"exponential", "Exponential", true, ["variance", "lengthscales"]⟩

def isStationary (k : BaseKernel) : Bool := k.spec.stationary

/-- The token of a kernel. A polynomial of degree one is named without its degree. -/
def name : BaseKernel → String
  | .polynomial degree => if degree = 1 then "polynomial" else "polynomial" ++ toString degree.toNat
  | k => k.spec.token

def registered : List BaseKernel :=
  [.arcCosine, .constant, .cosine, .exponential, .linear, .matern12, .matern32, .matern52,
    .periodic, .polynomial 1, .rationalQuadratic, .rbf, .white]

def defaultPalette : List BaseKernel :=
  [.cosine, .linear, .matern12, .matern32, .matern52, .periodic, .rbf, .white,
    .rationalQuadratic, .constant]

def readDegree (cs : List Char) : Option UInt32 :=
  (Decimal.readUnsigned? cs).bind fun n ↦
    if 0 < n ∧ n < UInt32.size then some (UInt32.ofNat n) else none

def ofName? (token : String) : Option BaseKernel :=
  match registered.find? (·.spec.token == token) with
  | some k => some k
  | none => ("polynomial".toList.isPrefixOf? token.toList).bind fun digits ↦
      (readDegree digits).map .polynomial

end BaseKernel

end CovarianceSearch
