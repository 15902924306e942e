import CovarianceSearch.Config.Fault
import CovarianceSearch.Grammar
import CovarianceSearch.Model
import CovarianceSearch.Series

namespace CovarianceSearch

inductive Error where
  | shapeMismatch (inputs targets : Nat)
  | bound (fault : BoundFault)
  | grammar (fault : GrammarFault)
  | node (fault : NodeFault)
  | notDecomposable (text : String)
  | config (fault : ConfigFault)
  /-- A layered configuration cannot be put together. -/
  | layers
  | missingTarget
  /-- A count leaves the range of the numbers that it is kept in. -/
  | overflow

def NodeFault.report (fault : NodeFault) : String := "Invalid kernel node: " ++ fault.message

def GrammarFault.report : GrammarFault → String
  | .unparsable e => "Invalid kernel expression: " ++ e.message
  | .unexpandable tree fault =>
    "Invalid kernel expression: cannot expand " ++ tree.label ++ ": " ++ fault.report
  | .sourceless key => s!"Invalid kernel expression: kernel `{key}` has no source expression"
  | .violation expression => "Grammar generated an invalid expression: " ++ expression

def Error.message : Error → String
  | .shapeMismatch inputs targets =>
    s!"Shape mismatch: x has {inputs} values, y has {targets}"
  | .bound fault => "Invalid bound: " ++ fault.message
  | .grammar fault => fault.report
  | .node fault => fault.report
  | .notDecomposable text =>
    s!"Kernel is not decomposable: `{text}` is not a sum of at least two components"
  | .config fault => "Configuration error: " ++ fault.message
  | .layers => "Configuration source error"
  | .missingTarget => "An input has no target"
  | .overflow => "A count is out of range"

end CovarianceSearch
