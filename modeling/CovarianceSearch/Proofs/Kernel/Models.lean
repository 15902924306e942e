import CovarianceSearch.Proofs.Evaluation
import CovarianceSearch.Proofs.Kernel.Component
import CovarianceSearch.Proofs.KernelTree.Simplify

namespace CovarianceSearch

open scoped Pointwise

section

variable {A : Type} [CommSemiring A]

theorem mem_sum_iff {l : List (Set A)} {a : A} :
    a ∈ l.sum ↔ ∃ as, List.Forall₂ (· ∈ ·) as l ∧ as.sum = a := by
  induction l generalizing a with
  | nil => simp [eq_comm]
  | cons s l ih =>
    simp only [List.sum_cons, Set.mem_add, ih, List.forall₂_cons_right_iff]
    constructor
    · rintro ⟨b, hb, _, ⟨bs, hbs, rfl⟩, rfl⟩
      exact ⟨b :: bs, ⟨b, bs, hb, hbs, rfl⟩, List.sum_cons⟩
    · rintro ⟨_, ⟨b, bs, hb, hbs, rfl⟩, rfl⟩
      exact ⟨b, hb, _, ⟨bs, hbs, rfl⟩, List.sum_cons.symm⟩

theorem mem_prod_iff {l : List (Set A)} {a : A} :
    a ∈ l.prod ↔ ∃ as, List.Forall₂ (· ∈ ·) as l ∧ as.prod = a := by
  induction l generalizing a with
  | nil => simp [eq_comm]
  | cons s l ih =>
    simp only [List.prod_cons, Set.mem_mul, ih, List.forall₂_cons_right_iff]
    constructor
    · rintro ⟨b, hb, _, ⟨bs, hbs, rfl⟩, rfl⟩
      exact ⟨b :: bs, ⟨b, bs, hb, hbs, rfl⟩, List.prod_cons⟩
    · rintro ⟨_, ⟨b, bs, hb, hbs, rfl⟩, rfl⟩
      exact ⟨b, hb, _, ⟨bs, hbs, rfl⟩, List.prod_cons.symm⟩

end

/-- Two points and whether they are the same observation, which is of one point. -/
abbrev ObservedPair : Type := {p : ℝ × ℝ × Bool // p.2.2 = true → p.1 = p.2.1}

noncomputable def Component.onPairs (f : Component ℝ) (p : ObservedPair) : ℝ :=
  f.covariance p.1.1 p.1.2.1 p.1.2.2

namespace Kernel

noncomputable def onPairs (k : Kernel ℝ) (p : ObservedPair) : ℝ :=
  k.covariance p.1.1 p.1.2.1 p.1.2.2

def IsPositive (k : Kernel ℝ) : Prop := ∀ f ∈ k.labels, f.IsPositive

variable {k k' : Kernel ℝ} {ks : List (Kernel ℝ)}

theorem covariance_sumNode (ks : List (Kernel ℝ)) (a b : ℝ) (same : Bool) :
    covariance (.node .sum ks) a b same = (ks.map fun k ↦ k.covariance a b same).sum := by
  rw [covariance, OpTree.fold_node]
  simp only [Scalar.sum_real, List.map_map]
  rfl

theorem covariance_productNode (ks : List (Kernel ℝ)) (a b : ℝ) (same : Bool) :
    covariance (.node .product ks) a b same = (ks.map fun k ↦ k.covariance a b same).prod := by
  rw [covariance, OpTree.fold_node]
  simp only [Scalar.product_real, List.map_map]
  rfl

theorem onPairs_sumNode (ks : List (Kernel ℝ)) :
    onPairs (.node .sum ks) = (ks.map onPairs).sum := by
  funext p
  rw [onPairs, covariance_sumNode, Pi.list_sum_apply, List.map_map]
  rfl

theorem onPairs_productNode (ks : List (Kernel ℝ)) :
    onPairs (.node .product ks) = (ks.map onPairs).prod := by
  funext p
  rw [onPairs, covariance_productNode, Pi.list_prod_apply, List.map_map]
  rfl

theorem isPositive_leaf_iff {f : Component ℝ} : IsPositive (.leaf f) ↔ f.IsPositive := by
  simp [IsPositive, OpTree.labels]

theorem isPositive_node_iff {op : Operation} :
    IsPositive (.node op ks) ↔ ∀ k ∈ ks, k.IsPositive := by
  rw [IsPositive, OpTree.labels_node]
  exact List.forall_mem_flatMap

theorem toTree_node {R : Type} (op : Operation) (ks : List (Kernel R)) :
    toTree (.node op ks) = .node op.toCombinator (ks.map toTree) := by
  rw [toTree, OpTree.map_node]

theorem gram_eq_of_onPairs_eq (h : k.onPairs = k'.onPairs) (xs : List ℝ) :
    k.gram xs = k'.gram xs := by
  have hpair (a b : ℝ) (same : Bool) (hsame : same = true → a = b) :
      k.covariance a b same = k'.covariance a b same :=
    congrFun h ⟨(a, b, same), hsame⟩
  refine List.flatMap_congr fun p hp ↦ List.map_congr_left fun q hq ↦ ?_
  obtain ⟨a, i⟩ := p
  obtain ⟨b, j⟩ := q
  rw [List.mem_zipIdx_iff_getElem?] at hp hq
  dsimp only
  split
  · refine hpair a b _ fun hij ↦ ?_
    rw [of_decide_eq_true hij] at hp
    exact Option.some.inj (hp.symm.trans hq)
  · exact hpair b a false (by simp)

end Kernel

namespace KernelTree

/-- The covariance functions that a tree stands for: those with positive values for all of its
parameters. -/
def models (t : KernelTree) : Set (ObservedPair → ℝ) :=
  {f | ∃ k : Kernel ℝ, k.toTree = t ∧ k.IsPositive ∧ k.onPairs = f}

variable {f : ObservedPair → ℝ} {ts : List KernelTree}

theorem mem_models_leaf_iff {b : BaseKernel} : f ∈ models (.leaf b) ↔
    ∃ params, (Component.mk b params).IsPositive ∧ (Component.mk b params).onPairs = f := by
  constructor
  · rintro ⟨k, htree, hpos, rfl⟩
    cases k with
    | leaf c =>
      obtain rfl : c.kernel = b := OpTree.leaf.inj htree
      exact ⟨c.params, Kernel.isPositive_leaf_iff.1 hpos, rfl⟩
    | node op ks =>
      rw [Kernel.toTree_node] at htree
      cases htree
  · rintro ⟨params, hpos, rfl⟩
    exact ⟨.leaf ⟨b, params⟩, rfl, Kernel.isPositive_leaf_iff.2 hpos, rfl⟩

/-- A sum or product stands for what its operands stand for, one function of each. -/
theorem mem_models_node_iff (op : Operation) : f ∈ models (.node op.toCombinator ts) ↔
    ∃ ks : List (Kernel ℝ), ks.map Kernel.toTree = ts ∧ (∀ k ∈ ks, k.IsPositive) ∧
      Kernel.onPairs (.node op ks) = f := by
  constructor
  · rintro ⟨k, htree, hpos, rfl⟩
    cases k with
    | leaf c => cases htree
    | node op' ks =>
      rw [Kernel.toTree_node] at htree
      obtain ⟨hop, hks⟩ := OpTree.node.inj htree
      obtain rfl : op' = op := by cases op <;> cases op' <;> first | rfl | cases hop
      exact ⟨ks, hks, Kernel.isPositive_node_iff.1 hpos, rfl⟩
  · rintro ⟨ks, rfl, hpos, rfl⟩
    exact ⟨_, Kernel.toTree_node op ks, Kernel.isPositive_node_iff.2 hpos, rfl⟩

theorem exists_kernels_iff {P : List (ObservedPair → ℝ) → Prop} :
    (∃ ks : List (Kernel ℝ), ks.map Kernel.toTree = ts ∧ (∀ k ∈ ks, k.IsPositive) ∧
      P (ks.map Kernel.onPairs)) ↔
    ∃ fs, List.Forall₂ (· ∈ ·) fs (ts.map models) ∧ P fs := by
  constructor
  · rintro ⟨ks, rfl, hpos, hP⟩
    refine ⟨_, ?_, hP⟩
    rw [List.map_map, List.forall₂_map_left_iff, List.forall₂_map_right_iff, List.forall₂_same]
    exact fun k hk ↦ ⟨k, rfl, hpos k hk, rfl⟩
  · rintro ⟨fs, hfs, hP⟩
    suffices ∃ ks : List (Kernel ℝ), ks.map Kernel.toTree = ts ∧ (∀ k ∈ ks, k.IsPositive) ∧
        ks.map Kernel.onPairs = fs by
      obtain ⟨ks, htrees, hpos, rfl⟩ := this
      exact ⟨ks, htrees, hpos, hP⟩
    clear hP
    rw [List.forall₂_map_right_iff] at hfs
    induction hfs with
    | nil => exact ⟨[], rfl, by simp, rfl⟩
    | cons hf _ ih =>
      obtain ⟨k, rfl, hk, rfl⟩ := hf
      obtain ⟨ks, rfl, hks, rfl⟩ := ih
      exact ⟨k :: ks, rfl, List.forall_mem_cons.2 ⟨hk, hks⟩, rfl⟩

theorem models_sumNode (ts : List KernelTree) :
    models (.node .sum ts) = (ts.map models).sum := by
  ext f
  rw [mem_sum_iff, ← exists_kernels_iff (P := fun fs ↦ fs.sum = f)]
  refine (mem_models_node_iff .sum).trans ?_
  simp only [Kernel.onPairs_sumNode]

theorem models_productNode (ts : List KernelTree) :
    models (.node .product ts) = (ts.map models).prod := by
  ext f
  rw [mem_prod_iff, ← exists_kernels_iff (P := fun fs ↦ fs.prod = f)]
  refine (mem_models_node_iff .product).trans ?_
  simp only [Kernel.onPairs_productNode]

theorem models_eq_empty {c : Combinator} (hc : c.operation? = none) :
    models (.node c ts) = ∅ := by
  refine Set.eq_empty_of_forall_notMem ?_
  rintro f ⟨k, htree, -⟩
  cases k with
  | leaf _ => cases htree
  | node op ks =>
    rw [Kernel.toTree_node] at htree
    rw [← (OpTree.node.inj htree).1, Combinator.operation?_toCombinator] at hc
    cases hc

end KernelTree

end CovarianceSearch
