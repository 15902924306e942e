import CovarianceSearch.Proofs.KernelTree.Expanded

namespace CovarianceSearch.KernelTree

def monomial (ks : List BaseKernel) : KernelTree := productOrSingle (ks.map .leaf)

def mapMonomials (g : List BaseKernel → List BaseKernel) : KernelTree → KernelTree
  | .node .sum ts => .node .sum (ts.map fun t ↦ monomial (g t.labels))
  | t => monomial (g t.labels)

def singleRbfFactor (ks : List BaseKernel) : List BaseKernel :=
  ks.filter (· ≠ .rbf) ++ (ks.filter (· = .rbf)).take 1

def absorbFactors (ks : List BaseKernel) : List BaseKernel :=
  if .white ∈ ks then .white :: ks.filter (!·.isStationary) else ks

def reduceFactors (ks : List BaseKernel) : List BaseKernel := absorbFactors (singleRbfFactor ks)

theorem monomial_singleton (k : BaseKernel) : monomial [k] = .leaf k := rfl

theorem isMonomial_leaves (ks : List BaseKernel) :
    ∀ t ∈ (ks.map .leaf : List KernelTree), IsMonomial t := by
  intro t ht
  obtain ⟨k, -, rfl⟩ := List.mem_map.1 ht
  exact .leaf k

theorem monomial_eq (ks : List BaseKernel) :
    (∃ k, ks = [k] ∧ monomial ks = .leaf k) ∨ monomial ks = .node .product (ks.map .leaf) := by
  have hproduct : product (ks.map .leaf) = .node .product (ks.map .leaf) := by
    rw [product_eq_node (isMonomial_leaves ks), flatMap_labels_leaves]
  match ks with
  | [] => exact .inr hproduct
  | [k] => exact .inl ⟨k, rfl, rfl⟩
  | k :: l :: ks => exact .inr hproduct

@[simp] theorem labels_monomial (ks : List BaseKernel) : (monomial ks).labels = ks := by
  rcases monomial_eq ks with ⟨k, rfl, -⟩ | h
  · rfl
  · rw [h, labels_node, flatMap_labels_leaves]

theorem isMonomial_monomial {ks : List BaseKernel} (hne : ks ≠ []) : IsMonomial (monomial ks) :=
  isMonomial_productOrSingle (by simpa using hne) (isMonomial_leaves ks)

theorem mapMonomials_monomial (g : List BaseKernel → List BaseKernel) (ks : List BaseKernel) :
    mapMonomials g (monomial ks) = monomial (g ks) := by
  rcases monomial_eq ks with ⟨k, rfl, -⟩ | h
  · rfl
  · rw [h, mapMonomials, labels_node, flatMap_labels_leaves]
    simp

theorem IsMonomial.mapMonomials_eq {t : KernelTree} (h : IsMonomial t)
    (g : List BaseKernel → List BaseKernel) : mapMonomials g t = monomial (g t.labels) := by
  cases h with
  | leaf k => rfl
  | product hne => rw [mapMonomials]; simp

theorem mapMonomials_sumNode (g : List BaseKernel → List BaseKernel) (ts : List KernelTree) :
    mapMonomials g (.node .sum ts) = .node .sum (ts.map fun t ↦ monomial (g t.labels)) := rfl

theorem IsExpanded.mapMonomials_comp {t : KernelTree} (h : IsExpanded t)
    (g g' : List BaseKernel → List BaseKernel) :
    mapMonomials g (mapMonomials g' t) = mapMonomials (g ∘ g') t := by
  cases h with
  | monomial h => rw [h.mapMonomials_eq, h.mapMonomials_eq, mapMonomials_monomial]; rfl
  | sum hne h => simp [mapMonomials_sumNode, Function.comp_def]

theorem IsExpanded.isExpanded_mapMonomials {t : KernelTree} (h : IsExpanded t)
    {g : List BaseKernel → List BaseKernel} (hg : ∀ ks, ks ≠ [] → g ks ≠ []) :
    IsExpanded (mapMonomials g t) := by
  cases h with
  | monomial h =>
    rw [h.mapMonomials_eq]
    exact .monomial (isMonomial_monomial (hg _ h.labels_ne_nil))
  | sum hne h =>
    refine .sum (by simpa using hne) fun s hs ↦ ?_
    obtain ⟨t, ht, rfl⟩ := List.mem_map.1 hs
    exact isMonomial_monomial (hg _ (h t ht).labels_ne_nil)

section changeFactors

variable {change : List KernelTree → List KernelTree} {g : List BaseKernel → List BaseKernel}

@[simp] theorem changeFactors_leaf (k : BaseKernel) : changeFactors change (.leaf k) = .leaf k :=
  rfl

theorem changeFactors_sumNode (ts : List KernelTree) :
    changeFactors change (.node .sum ts) = sum (ts.map (changeFactors change)) := by
  simp [changeFactors]

theorem changeFactors_productNode (ts : List KernelTree) :
    changeFactors change (.node .product ts) =
      productOrSingle (change (ts.map (changeFactors change))) := by
  simp [changeFactors]

/-- On trees that are multiplied out, a change of factors works on every monomial by itself. -/
theorem IsMonomial.changeFactors_eq {t : KernelTree} (h : IsMonomial t)
    (hchange : ∀ ks : List BaseKernel, change (ks.map .leaf) = (g ks).map .leaf)
    (hsingle : ∀ k, g [k] = [k]) : changeFactors change t = monomial (g t.labels) := by
  cases h with
  | leaf k => rw [changeFactors_leaf, labels_leaf, hsingle, monomial_singleton]
  | @product ks hne =>
    have hleaves : (ks.map .leaf : List KernelTree).map (changeFactors change) = ks.map .leaf := by
      simp
    rw [changeFactors_productNode, hleaves, hchange, labels_node, flatMap_labels_leaves]
    rfl

theorem operandsFor_sum_monomial (ks : List BaseKernel) :
    operandsFor .sum (monomial ks) = [monomial ks] := by
  rcases monomial_eq ks with ⟨k, rfl, -⟩ | h
  · rfl
  · rw [h]; rfl

theorem sum_map_monomial (g : KernelTree → List BaseKernel) (ts : List KernelTree) :
    sum (ts.map fun t ↦ monomial (g t)) = .node .sum (ts.map fun t ↦ monomial (g t)) := by
  refine sum_eq_node fun s hs ↦ ?_
  obtain ⟨t, -, rfl⟩ := List.mem_map.1 hs
  exact operandsFor_sum_monomial (g t)

theorem IsExpanded.changeFactors_eq {t : KernelTree} (h : IsExpanded t)
    (hchange : ∀ ks : List BaseKernel, change (ks.map .leaf) = (g ks).map .leaf)
    (hsingle : ∀ k, g [k] = [k]) : changeFactors change t = mapMonomials g t := by
  cases h with
  | monomial h => rw [h.changeFactors_eq hchange hsingle, h.mapMonomials_eq]
  | @sum ts hne h =>
    have hmap : ts.map (changeFactors change) = ts.map fun t ↦ KernelTree.monomial (g t.labels) :=
      List.map_congr_left fun t ht ↦ (h t ht).changeFactors_eq hchange hsingle
    rw [changeFactors_sumNode, hmap, mapMonomials_sumNode, sum_map_monomial]

end changeFactors

theorem singleRbf_leaves (ks : List BaseKernel) :
    singleRbf (ks.map .leaf) = (singleRbfFactor ks).map .leaf := by
  simp [singleRbf, singleRbfFactor, List.filter_map, List.map_take, Function.comp_def]

theorem absorbIntoWhite_leaves (ks : List BaseKernel) :
    absorbIntoWhite (ks.map .leaf) = (absorbFactors ks).map .leaf := by
  unfold absorbIntoWhite absorbFactors
  by_cases h : BaseKernel.white ∈ ks
  · simp [h, List.filter_map, Function.comp_def, isNonStationary]
  · simp [h]

theorem singleRbfFactor_singleton (k : BaseKernel) : singleRbfFactor [k] = [k] := by
  by_cases h : k = .rbf <;> simp [singleRbfFactor, h]

theorem absorbFactors_singleton (k : BaseKernel) : absorbFactors [k] = [k] := by
  by_cases h : k = .white
  · subst h; rfl
  · simp [absorbFactors, Ne.symm h]

theorem singleRbfFactor_ne_nil {ks : List BaseKernel} (hne : ks ≠ []) :
    singleRbfFactor ks ≠ [] := by
  obtain ⟨k, hk⟩ := List.exists_mem_of_ne_nil ks hne
  by_cases h : k = .rbf
  · have hrbf : ks.filter (· = .rbf) ≠ [] := List.ne_nil_of_mem (by simpa [h] using hk : k ∈ _)
    simp [singleRbfFactor, hrbf]
  · have hother : k ∈ ks.filter (· ≠ .rbf) := by simpa [h] using hk
    exact List.ne_nil_of_mem (List.mem_append_left _ hother)

theorem absorbFactors_ne_nil {ks : List BaseKernel} (hne : ks ≠ []) : absorbFactors ks ≠ [] := by
  unfold absorbFactors
  split
  · simp
  · exact hne

theorem reduceFactors_ne_nil (ks : List BaseKernel) (hne : ks ≠ []) : reduceFactors ks ≠ [] :=
  absorbFactors_ne_nil (singleRbfFactor_ne_nil hne)

/-- Simplification multiplies out and then reduces every monomial by itself. -/
theorem IsValid.simplify_eq {t : KernelTree} (h : IsValid t) :
    t.simplify = mapMonomials reduceFactors t.distribute := by
  have hd := h.isExpanded_distribute
  have hm : mergeRbfs t.distribute = mapMonomials singleRbfFactor t.distribute :=
    hd.changeFactors_eq singleRbf_leaves singleRbfFactor_singleton
  have he := hd.isExpanded_mapMonomials fun _ ↦ singleRbfFactor_ne_nil
  calc t.simplify
      = absorbWhiteProducts (mapMonomials singleRbfFactor t.distribute) := by rw [simplify, hm]
    _ = mapMonomials absorbFactors (mapMonomials singleRbfFactor t.distribute) :=
        he.changeFactors_eq absorbIntoWhite_leaves absorbFactors_singleton
    _ = mapMonomials reduceFactors t.distribute := hd.mapMonomials_comp ..

theorem IsValid.isExpanded_simplify {t : KernelTree} (h : IsValid t) : IsExpanded t.simplify := by
  rw [h.simplify_eq]
  exact h.isExpanded_distribute.isExpanded_mapMonomials reduceFactors_ne_nil

theorem IsValid.isValid_simplify {t : KernelTree} (h : IsValid t) : IsValid t.simplify :=
  h.isExpanded_simplify.isValid

theorem isStationary_ne_rbf {k : BaseKernel} (h : k.isStationary = false) : k ≠ .rbf := by
  rintro rfl
  exact absurd h (by decide)

theorem simplify_leaf (k : BaseKernel) : simplify (.leaf k) = .leaf k := rfl

end CovarianceSearch.KernelTree
