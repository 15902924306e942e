import CovarianceSearch.KernelTree.Simplify
import CovarianceSearch.Proofs.Terms
import Mathlib.Algebra.BigOperators.Ring.List

namespace CovarianceSearch.KernelTree

universe u

variable {R : Type u} [CommSemiring R] (f : BaseKernel → R) (point window : List R → R)

/-- What a tree comes to where base kernels have values in a semiring. The two changes may be any
functions of the values of their parts. -/
def value : KernelTree → R :=
  OpTree.fold f fun c vs ↦ match c with
    | .sum => vs.sum
    | .product => vs.prod
    | .changePoint => point vs
    | .changeWindow => window vs

@[simp] theorem value_leaf (k : BaseKernel) : value f point window (.leaf k) = f k := rfl

@[simp] theorem value_sumNode (ts : List KernelTree) :
    value f point window (.node .sum ts) = (ts.map (value f point window)).sum := by
  simp [value]

@[simp] theorem value_productNode (ts : List KernelTree) :
    value f point window (.node .product ts) = (ts.map (value f point window)).prod := by
  simp [value]

theorem sum_operandsFor (t : KernelTree) :
    ((operandsFor .sum t).map (value f point window)).sum = value f point window t := by
  cases t with
  | leaf k => simp [operandsFor]
  | node c ts => by_cases h : c = .sum <;> simp [operandsFor, h]

theorem prod_operandsFor (t : KernelTree) :
    ((operandsFor .product t).map (value f point window)).prod = value f point window t := by
  cases t with
  | leaf k => simp [operandsFor]
  | node c ts => by_cases h : c = .product <;> simp [operandsFor, h]

@[simp] theorem value_sum (ts : List KernelTree) :
    value f point window (sum ts) = (ts.map (value f point window)).sum := by
  rw [sum, combine, value_sumNode]
  induction ts with
  | nil => rfl
  | cons t ts ih =>
    rw [List.flatMap_cons, List.map_append, List.sum_append, sum_operandsFor, ih, List.map_cons,
      List.sum_cons]

@[simp] theorem value_product (ts : List KernelTree) :
    value f point window (product ts) = (ts.map (value f point window)).prod := by
  rw [product, combine, value_productNode]
  induction ts with
  | nil => rfl
  | cons t ts ih =>
    rw [List.flatMap_cons, List.map_append, List.prod_append, prod_operandsFor, ih, List.map_cons,
      List.prod_cons]

@[simp] theorem value_productOrSingle (ts : List KernelTree) :
    value f point window (productOrSingle ts) = (ts.map (value f point window)).prod := by
  match ts with
  | [] => exact value_product f point window []
  | [t] => simp [productOrSingle]
  | t :: u :: ts => exact value_product f point window (t :: u :: ts)

/-- The products of all picks add up to the product of the sums that are picked from. -/
theorem sum_picks (ts : List KernelTree) :
    ((picks ts).map fun p ↦ (p.map (value f point window)).prod).sum =
      (ts.map (value f point window)).prod := by
  induction ts with
  | nil => simp [picks]
  | cons t ts ih =>
    have hpick (s : KernelTree) : ((picks ts).map fun p ↦
          ((s :: p).map (value f point window)).prod).sum =
        value f point window s * (ts.map (value f point window)).prod := by
      simp only [List.map_cons, List.prod_cons]
      rw [← ih, List.sum_map_mul_left]
    rw [picks, List.map_flatMap, List.map_cons, List.prod_cons, ← sum_operandsFor,
      ← List.sum_map_mul_right]
    rw [List.flatMap, List.sum_flatten, List.map_map]
    simp only [Function.comp_def, List.map_map, hpick]

theorem value_expandProduct (ts : List KernelTree) :
    value f point window (expandProduct ts) = (ts.map (value f point window)).prod := by
  unfold expandProduct
  split
  · rw [value_sum, List.map_map]
    simp only [Function.comp_def, value_productOrSingle, sum_picks]
  · exact value_product f point window ts

@[simp] theorem distribute_leaf (k : BaseKernel) : distribute (.leaf k) = .leaf k := rfl

@[simp] theorem distribute_sumNode (ts : List KernelTree) :
    distribute (.node .sum ts) = sum (ts.map distribute) := by
  simp [distribute]

@[simp] theorem distribute_productNode (ts : List KernelTree) :
    distribute (.node .product ts) = expandProduct (ts.map distribute) := by
  simp [distribute]

/-- Multiplying out keeps the value of a tree in every commutative semiring. -/
theorem value_distribute (t : KernelTree) :
    value f point window t.distribute = value f point window t := by
  induction t using OpTree.induction with
  | leaf k => rfl
  | node c ts ih =>
    have hmap : (ts.map distribute).map (value f point window) =
        ts.map (value f point window) := by
      rw [List.map_map]
      exact List.map_congr_left ih
    cases c with
    | sum => rw [distribute_sumNode, value_sum, hmap, value_sumNode]
    | product => rw [distribute_productNode, value_expandProduct, hmap, value_productNode]
    | changePoint => simp only [distribute, value, OpTree.fold_node] at hmap ⊢; rw [hmap]
    | changeWindow => simp only [distribute, value, OpTree.fold_node] at hmap ⊢; rw [hmap]

end CovarianceSearch.KernelTree
