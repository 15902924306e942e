import CovarianceSearch.Entry
import CovarianceSearch.Expression.Parse
import CovarianceSearch.KernelTree.Text

namespace CovarianceSearch

inductive GrammarFault where
  | unparsable (e : Expression.ParseError)
  | unexpandable (tree : KernelTree) (fault : NodeFault)
  | sourceless (key : String)
  | violation (expression : String)
  deriving DecidableEq

structure Candidate where
  tree : KernelTree
  expression : Option String

/-- The base kernels that structures grow by, excluded ones apart. The constant that is added to one
of them to make a factor need not be among them and may be excluded. -/
structure Palette where
  baseKernels : List BaseKernel
  excluded : List BaseKernel
  /-- Whether a structure is also multiplied with the sum of two constants. -/
  laxConstant : Bool

namespace Palette

def standard : Palette := ⟨BaseKernel.defaultPalette, [], true⟩

def active (p : Palette) : List BaseKernel := p.baseKernels.filter (· ∉ p.excluded)

def lax (p : Palette) : List BaseKernel :=
  p.active.filter fun k ↦ p.laxConstant || k ≠ .constant

end Palette

inductive GrammarKind where
  | tree
  | text
  deriving DecidableEq

structure Grammar where
  kind : GrammarKind
  palette : Palette

namespace Palette

variable (p : Palette)

/-- The structures that one base kernel makes from `t`: it is added, multiplied with, and
multiplied with after a constant has been added to it. -/
def treeVariants (t : KernelTree) (k : BaseKernel) : List KernelTree :=
  let grown := [KernelTree.sum [t, .leaf k], KernelTree.product [t, .leaf k]]
  if k ∈ p.lax then
    grown ++ [KernelTree.product [t, .node .sum [.leaf k, .leaf .constant]]]
  else grown

def treeSteps (t : KernelTree) : List KernelTree :=
  p.active.map .leaf ++ p.active.flatMap (p.treeVariants t) ++ t.decompose

def expandTree (t : KernelTree) : Except GrammarFault (List KernelTree) :=
  match t.validate with
  | .ok () => .ok (p.treeSteps t)
  | .error fault => .error (.unexpandable t fault)

def textVariants (current : String) (k : BaseKernel) : List String :=
  let grown := [current ++ " + " ++ k.name, "(" ++ current ++ ") * " ++ k.name]
  if k ∈ p.lax then
    grown ++ ["(" ++ current ++ ") * (" ++ k.name ++ " + " ++ BaseKernel.constant.name ++ ")"]
  else grown

def textSteps (e : Expression) : List String :=
  p.active.map (·.name) ++ p.active.flatMap (p.textVariants e.text) ++ e.operands.map (·.text)

def reread (text : String) : Except GrammarFault Expression :=
  match Expression.parse text with
  | .ok e => .ok e
  | .error _ => .error (.violation text)

def extendText (text : String) : Except GrammarFault (List String) := do
  let e ← (Expression.parse text).mapError .unparsable
  let steps := p.textSteps e
  let _ ← steps.mapM reread
  return steps

end Palette

namespace Grammar

def seed (g : Grammar) (k : BaseKernel) : Candidate :=
  match g.kind with
  | .tree => ⟨.leaf k, none⟩
  | .text => ⟨.leaf k, some k.name⟩

def expandTree (g : Grammar) (t : KernelTree) : Except GrammarFault (List Candidate) := do
  return (← g.palette.expandTree t).map (⟨·, none⟩)

def expandText (g : Grammar) (text : String) : Except GrammarFault (List Candidate) := do
  (← g.palette.extendText text).mapM fun step ↦ do
    let e ← (Expression.parse step).mapError .unparsable
    return ⟨e.toTree, some step⟩

def expand (g : Grammar) (entry : Entry) : Except GrammarFault (List Candidate) :=
  match g.kind, entry.expression with
  | .tree, _ => g.expandTree entry.tree
  | .text, some text => g.expandText text
  | .text, none => .error (.sourceless entry.key)

def expandBaseKernels (g : Grammar) : Except GrammarFault (List Candidate) := do
  let steps ← g.palette.active.mapM fun k ↦
    match g.kind with
    | .tree => g.expandTree (.leaf k)
    | .text => g.expandText k.name
  return steps.flatten

end Grammar

end CovarianceSearch
