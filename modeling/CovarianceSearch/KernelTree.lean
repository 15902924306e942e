import CovarianceSearch.BaseKernel
import CovarianceSearch.OpTree

namespace CovarianceSearch

inductive Operation where
  | sum
  | product
  deriving DecidableEq

/-- What an inner node of a kernel tree may be. Change points and windows can be written down but
stand for no covariance function. -/
inductive Combinator where
  | sum
  | product
  | changePoint
  | changeWindow
  deriving DecidableEq

namespace Operation

def token : Operation → String
  | .sum => "sum"
  | .product => "product"

def title : Operation → String
  | .sum => "Sum"
  | .product => "Product"

def toCombinator : Operation → Combinator
  | .sum => .sum
  | .product => .product

end Operation

namespace Combinator

def token : Combinator → String
  | .sum => "sum"
  | .product => "product"
  | .changePoint => "cp"
  | .changeWindow => "cw"

def title : Combinator → String
  | .sum => "Sum"
  | .product => "Product"
  | .changePoint => "ChangePoint"
  | .changeWindow => "ChangeWindow"

def operation? : Combinator → Option Operation
  | .sum => some .sum
  | .product => some .product
  | .changePoint | .changeWindow => none

theorem operation?_toCombinator (op : Operation) : op.toCombinator.operation? = some op := by
  cases op <;> rfl

end Combinator

/-- The structure of a kernel: base kernels combined by sums and products. -/
abbrev KernelTree := OpTree Combinator BaseKernel

namespace KernelTree

/-- The operands a tree contributes to a combination by `c`: its own, if it is one itself. -/
def operandsFor (c : Combinator) : KernelTree → List KernelTree
  | .node c' ts => if c' = c then ts else [.node c' ts]
  | .leaf k => [.leaf k]

/-- A combination of `ts` that has taken in the operands of like combinations among them. -/
def combine (c : Combinator) (ts : List KernelTree) : KernelTree :=
  .node c (ts.flatMap (operandsFor c))

def sum (ts : List KernelTree) : KernelTree := combine .sum ts

def product (ts : List KernelTree) : KernelTree := combine .product ts

/-- The operands of a sum or product. Every other tree is its own single part. -/
def decompose : KernelTree → List KernelTree
  | .node .sum ts => ts
  | .node .product ts => ts
  | t => [t]

end KernelTree

end CovarianceSearch
