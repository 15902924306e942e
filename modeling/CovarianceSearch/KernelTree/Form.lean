import CovarianceSearch.Document.Field
import CovarianceSearch.KernelTree

namespace CovarianceSearch

namespace BaseKernel

def formName : BaseKernel → String
  | .rationalQuadratic => "rational_quadratic"
  | .arcCosine => "arc_cosine"
  | k => k.spec.token

def toDatum : BaseKernel → Datum
  | .polynomial degree => .table [("polynomial", .table [("degree", .integer degree.toNat)])]
  | k => .text k.formName

def ofFormName? (name : String) : Option BaseKernel :=
  match registered.find? (·.formName == name) with
  | some (.polynomial _) => none
  | found => found

def degree? (d : Datum) : Option UInt32 :=
  d.natural?.bind fun n ↦ if n < UInt32.size then some (.ofNat n) else none

def ofDatum? : Datum → Option BaseKernel
  | .table [("polynomial", d)] => do
    return .polynomial (← (← d.fields?).required? "degree" degree?)
  | d => d.choice? ofFormName? Datum.isNull

end BaseKernel

namespace Combinator

def formName : Combinator → String
  | .sum => "sum"
  | .product => "product"
  | .changePoint => "change_point"
  | .changeWindow => "change_window"

def toDatum (c : Combinator) : Datum := .text c.formName

def ofFormName? (name : String) : Option Combinator :=
  [sum, product, changePoint, changeWindow].find? (·.formName == name)

def ofDatum? (d : Datum) : Option Combinator := d.choice? ofFormName? Datum.isNull

end Combinator

namespace KernelTree

def toDatum : KernelTree → Datum :=
  OpTree.fold (fun k ↦ .table [("Leaf", k.toDatum)]) fun c parts ↦
    .table [("Internal", .table [("combinator", c.toDatum), ("children", .list parts)])]

mutual

def ofDatum? : Datum → Option KernelTree
  | .table [(tag, d)] =>
    if tag = "Leaf" then (BaseKernel.ofDatum? d).map .leaf
    else if tag = "Internal" then ofNode? d
    else none
  | _ => none

def ofNode? : Datum → Option KernelTree
  | .table fields => do
    let c ← (fields.lookup "combinator").bind Combinator.ofDatum?
    return .node c (← operandsIn? fields)
  | _ => none

def operandsIn? : Fields → Option (List KernelTree)
  | [] => none
  | (key, d) :: fields => if key = "children" then ofList? d else operandsIn? fields

def ofList? : Datum → Option (List KernelTree)
  | .list items => ofItems? items
  | _ => none

def ofItems? : List Datum → Option (List KernelTree)
  | [] => some []
  | d :: ds => do
    let t ← ofDatum? d
    return t :: (← ofItems? ds)

end

end KernelTree

end CovarianceSearch
