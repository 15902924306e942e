import CovarianceSearch.Assignment
import CovarianceSearch.KernelTree

namespace CovarianceSearch

/-- A kernel structure that a search has come across. Lower scores are better, and an entry that is
not scored or could not be fitted has an infinite one. -/
structure Entry where
  key : String
  tree : KernelTree
  depth : Nat
  score : Float
  params : Option Assignment
  /-- The expression that the structure was first written as. -/
  expression : Option String
  evaluated : Bool

namespace Entry

def infinity : Float := 1.0 / 0.0

def unscored (key : String) (tree : KernelTree) (depth : Nat) : Entry :=
  ⟨key, tree, depth, infinity, none, none, false⟩

end Entry

end CovarianceSearch
