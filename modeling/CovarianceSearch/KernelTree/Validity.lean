import CovarianceSearch.KernelTree

namespace CovarianceSearch

inductive NodeFault where
  | unregistered (c : Combinator)
  | noOperands (op : Operation)
  deriving DecidableEq

def NodeFault.message : NodeFault → String
  | .unregistered c => s!"`{c.token}` is not a registered kernel type"
  | .noOperands op => s!"`{op.token}` needs at least one operand"

namespace Combinator

def operation (c : Combinator) : Except NodeFault Operation :=
  match c.operation? with
  | some op => .ok op
  | none => .error (.unregistered c)

def applied (c : Combinator) (arity : Nat) : Except NodeFault Operation := do
  let op ← c.operation
  if arity = 0 then throw (.noOperands op) else return op

end Combinator

namespace KernelTree

/-- Accepts the trees in which every combination is a sum or product of at least one operand, and
reports the first other node, parents before children. -/
def validate : KernelTree → Except NodeFault Unit :=
  OpTree.fold (fun _ ↦ .ok ()) fun c checks ↦ do
    let _ ← c.applied checks.length
    checks.forM id

end KernelTree

end CovarianceSearch
