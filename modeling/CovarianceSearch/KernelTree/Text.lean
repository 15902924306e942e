import CovarianceSearch.KernelTree.Validity
import CovarianceSearch.StableSort

namespace CovarianceSearch

def Operation.sign : Operation → String
  | .sum => " + "
  | .product => " * "

namespace KernelTree

/-- The operands of a node joined in sorted order. A sum is bracketed inside a product. -/
def joined (op : Operation) (inProduct : Bool) (operands : List String) : String :=
  let body := op.sign.intercalate (StableSort.sort (· < ·) operands)
  if op = .sum && inProduct then "(" ++ body ++ ")" else body

def textWithin : KernelTree → Bool → Except NodeFault String :=
  OpTree.fold (fun k _ ↦ .ok k.name) fun c operands inProduct ↦ do
    let op ← c.operation
    return joined op inProduct (← operands.mapM (· (op = .product)))

/-- The text that a structure is known by. Operands are sorted, so rearranging a sum or product
does not change it. -/
def text (t : KernelTree) : Except NodeFault String := textWithin t false

def title : KernelTree → String
  | .leaf k => k.spec.title
  | .node c _ => c.title

def branch (last : Bool) : List String → List String
  | [] => []
  | line :: lines =>
    ((if last then "+-- " else "|-- ") ++ line) ::
      lines.map ((if last then "    " else "|   ") ++ ·)

def branches : List (List String) → List String
  | [] => []
  | [lines] => branch true lines
  | lines :: rest => branch false lines ++ branches rest

def outlineLines : KernelTree → List String :=
  OpTree.fold (fun k ↦ [k.spec.title]) fun c subtrees ↦ c.title :: branches subtrees

def outline (t : KernelTree) : String := String.join ((outlineLines t).map (· ++ "\n"))

def baseLabel : BaseKernel → String
  | .polynomial degree => "Polynomial \x7b degree: " ++ toString degree.toNat ++ " \x7d"
  | .rbf => "Rbf"
  | k => k.spec.title

def label : KernelTree → String :=
  OpTree.fold (fun k ↦ "Leaf(" ++ baseLabel k ++ ")") fun c parts ↦
    "Internal \x7b combinator: " ++ c.title ++ ", children: [" ++ ", ".intercalate parts ++ "] \x7d"

end KernelTree

end CovarianceSearch
