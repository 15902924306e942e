import CovarianceSearch.Proofs.Kernel.Simplify

namespace CovarianceSearch

namespace Kernel

/-- Whether a kernel is another one with positive values for all of its parameters. -/
structure Reassigns (k k' : Kernel ℝ) : Prop where
  toTree_eq : k'.toTree = k.toTree
  lengths_eq : k'.labels.map (·.params.length) = k.labels.map (·.params.length)
  pos : ∀ f ∈ k'.labels, ∀ v ∈ f.params, 0 < v

variable {t : KernelTree} {k k' : Kernel ℝ}

theorem labels_toTree {R : Type} (k : Kernel R) : k.toTree.labels = k.labels.map (·.kernel) :=
  OpTree.labels_map _ _ k

theorem labels_of_ofTree {R : Type} [Scalar R] {k : Kernel R} (h : Kernel.ofTree t = .ok k) :
    k.labels = t.labels.map .standard := by
  refine ofTree_induction (motive := fun t k ↦ k.labels = t.labels.map .standard) (fun b ↦ rfl)
    (fun op ts ks ih ↦ ?_) h
  have hlabels := map_eq_map_of_forall₂ (ih.imp fun _ _ ↦ Eq.symm)
  rw [OpTree.labels_node, OpTree.labels_node, List.map_flatMap, List.flatMap, List.flatMap, hlabels]

theorem reassigns_iff (h : Kernel.ofTree t = .ok k) :
    k.Reassigns k' ↔ k'.toTree = t ∧ k'.IsPositive := by
  have htree := toTree_of_ofTree h
  have hlengths (hk' : k'.toTree = t) :
      k.labels.map (·.params.length) = k'.labels.map fun f ↦ f.kernel.spec.parameters.length := by
    rw [labels_of_ofTree h, ← hk', labels_toTree, List.map_map, List.map_map]
    exact List.map_congr_left fun f _ ↦ by simp [Component.standard]
  constructor
  · intro hk'
    have heq := hk'.toTree_eq.trans htree
    have hlabels := hk'.lengths_eq.trans (hlengths heq)
    exact ⟨heq, fun f hf ↦ ⟨List.map_inj_left.1 hlabels f hf, hk'.pos f hf⟩⟩
  · rintro ⟨heq, hpos⟩
    refine ⟨heq.trans htree.symm, ?_, fun f hf ↦ (hpos f hf).pos⟩
    rw [hlengths heq]
    exact List.map_congr_left fun f hf ↦ (hpos f hf).length

/-- Simplification does not shrink the model class: whatever positive values the parameters of a
tree have, those of the simplified tree have values with the same covariance matrices. -/
theorem exists_reassigns_simplify_gram_eq (ht : t.IsValid) :
    ∃ k₀ k₁ : Kernel ℝ, Kernel.ofTree t = .ok k₀ ∧ Kernel.ofTree t.simplify = .ok k₁ ∧
      ∀ k, k₀.Reassigns k → ∃ k', k₁.Reassigns k' ∧ ∀ xs, k'.gram xs = k.gram xs := by
  obtain ⟨k₀, hk₀⟩ := exists_ofTree (R := ℝ) ht
  obtain ⟨k₁, hk₁⟩ := exists_ofTree (R := ℝ) ht.isValid_simplify
  refine ⟨k₀, k₁, hk₀, hk₁, fun k hk ↦ ?_⟩
  obtain ⟨htree, hpos⟩ := (reassigns_iff hk₀).1 hk
  obtain ⟨k', htree', hpos', hpairs⟩ := ht.models_subset_simplify ⟨k, htree, hpos, rfl⟩
  exact ⟨k', (reassigns_iff hk₁).2 ⟨htree', hpos'⟩, gram_eq_of_onPairs_eq hpairs⟩

theorem exists_reassigns_simplify_gram_eq_noisyRbf :
    ∃ k' : Kernel ℝ,
      k'.toTree = .node .sum [.leaf .white, .node .product [.leaf .linear, .leaf .rbf]] ∧
      k'.IsPositive ∧ ∀ xs, k'.gram xs = gram (.node .product [.leaf ⟨.rbf, [2, 3]⟩,
        .leaf ⟨.rbf, [1, 4]⟩, .node .sum [.leaf ⟨.white, [5]⟩, .leaf ⟨.linear, [1]⟩]]) xs := by
  have hvalid : KernelTree.IsValid (.node .product [.leaf .rbf, .leaf .rbf,
      .node .sum [.leaf .white, .leaf .linear]]) := by
    rw [KernelTree.IsValid]
    decide
  have hsimplify : KernelTree.simplify (.node .product [.leaf .rbf, .leaf .rbf,
      .node .sum [.leaf .white, .leaf .linear]]) =
        .node .sum [.leaf .white, .node .product [.leaf .linear, .leaf .rbf]] := by decide
  obtain ⟨k₀, k₁, hk₀, hk₁, hgram⟩ := exists_reassigns_simplify_gram_eq hvalid
  cases hk₀
  obtain ⟨k', hk', hgram⟩ := hgram (.node .product [.leaf ⟨.rbf, [2, 3]⟩,
    .leaf ⟨.rbf, [1, 4]⟩, .node .sum [.leaf ⟨.white, [5]⟩, .leaf ⟨.linear, [1]⟩]])
    ⟨rfl, rfl, by simp [OpTree.labels]⟩
  obtain ⟨htree, hpos⟩ := (reassigns_iff hk₁).1 hk'
  exact ⟨k', htree.trans hsimplify, hpos, hgram⟩

end Kernel

end CovarianceSearch
