import CovarianceSearch.Config.Layers
import CovarianceSearch.Proofs.BaseKernel.Names
import CovarianceSearch.Proofs.Config.Saving
import CovarianceSearch.Proofs.Criterion
import CovarianceSearch.Proofs.Discovery
import CovarianceSearch.Proofs.Discovery.Best
import CovarianceSearch.Proofs.Evaluation.Bounds
import CovarianceSearch.Proofs.Expression.Recognition
import CovarianceSearch.Proofs.Expression.RoundTrip
import CovarianceSearch.Proofs.Grammar.Generations
import CovarianceSearch.Proofs.Kernel.Instantiation
import CovarianceSearch.Proofs.Kernel.Polynomial
import CovarianceSearch.Proofs.KernelTree.Outline
import CovarianceSearch.Proofs.KernelTree.Reading
import CovarianceSearch.Proofs.KernelTree.Uniqueness
import CovarianceSearch.Proofs.Ranking
import CovarianceSearch.Proofs.Search.Extent
import CovarianceSearch.Proofs.Search.Rearrangement
import CovarianceSearch.Proofs.Search.Reports
import CovarianceSearch.Proofs.Search.Restriction
import CovarianceSearch.Proofs.Series
import CovarianceSearch.Proofs.Table.Indexed
