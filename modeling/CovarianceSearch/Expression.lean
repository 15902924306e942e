import CovarianceSearch.KernelTree

namespace CovarianceSearch

/-- A kernel as it is written down: sums to the left of base kernels, and products whose left
factor is bracketed. A lax product has the sum of two base kernels as its right factor. -/
inductive Expression where
  | kernel (k : BaseKernel)
  | add (left right : Expression)
  | mul (left right : Expression)
  | laxMul (left : Expression) (a b : BaseKernel)
  | changePoint (before after : Expression)
  | changeWindow (outside inside : Expression)
  deriving DecidableEq

namespace Expression

def text : Expression → String
  | .kernel k => k.name
  | .add l r => l.text ++ " + " ++ r.text
  | .mul l r => "(" ++ l.text ++ ") * " ++ r.text
  | .laxMul l a b => "(" ++ l.text ++ ") * (" ++ a.name ++ " + " ++ b.name ++ ")"
  | .changePoint a b => "cp(" ++ a.text ++ ", " ++ b.text ++ ")"
  | .changeWindow a b => "cw(" ++ a.text ++ ", " ++ b.text ++ ")"

def toTree : Expression → KernelTree
  | .kernel k => .leaf k
  | .add l r => KernelTree.sum [l.toTree, r.toTree]
  | .mul l r => KernelTree.product [l.toTree, r.toTree]
  | .laxMul l a b => KernelTree.product [l.toTree, .node .sum [.leaf a, .leaf b]]
  | .changePoint a b => .node .changePoint [a.toTree, b.toTree]
  | .changeWindow a b => .node .changeWindow [a.toTree, b.toTree]

def terms : Expression → List Expression
  | .add l r => l.terms ++ [r]
  | e => [e]

def operands : Expression → List Expression
  | .add l r => l.terms ++ [r]
  | .mul l r => [l, r]
  | .laxMul l a b => [l, .add (.kernel a) (.kernel b)]
  | e => [e]

end Expression

end CovarianceSearch
