import CovarianceSearch.Proofs.KernelTree.Labels
import CovarianceSearch.Proofs.KernelTree.MultipliedOut
import CovarianceSearch.Proofs.KernelTree.Simplify

namespace CovarianceSearch.KernelTree

/-- Whether two trees are the same base kernel, or combinations of one kind. -/
def SameRoot (s t : KernelTree) : Prop := s.op? = t.op? ∧ s.label? = t.label?

/-- A change of the factors of a product that picks among them by their roots. -/
structure IsSelection (change : List KernelTree → List KernelTree) : Prop where
  subset (ts : List KernelTree) : change ts ⊆ ts
  idem (ts : List KernelTree) : change (change ts) = change ts
  map_of_sameRoot {g : KernelTree → KernelTree} {ts : List KernelTree}
    (h : ∀ t ∈ ts, SameRoot (g t) t) : change (ts.map g) = (change ts).map g
  ne_nil {ts : List KernelTree} (h : ts ≠ []) : change ts ≠ []
  isLeaf_of_eq_singleton {ts : List KernelTree} {t : KernelTree} (h : 2 ≤ ts.length)
    (ht : change ts = [t]) : t.isLeaf = true

def HasRbfLast (ts : List KernelTree) : Prop := .leaf .rbf ∉ ts.dropLast

def HasWhiteFirst (ts : List KernelTree) : Prop :=
  .leaf .white ∈ ts → ∃ us, ts = .leaf .white :: us ∧ ∀ u ∈ us, u.isNonStationary = true

variable {k : BaseKernel} {s t : KernelTree} {ts : List KernelTree}

theorem label?_eq_some_iff : t.label? = some k ↔ t = .leaf k := by
  cases t with
  | leaf l => simp [OpTree.label?]
  | node c ts => simp [OpTree.label?]

theorem SameRoot.eq_leaf_iff (h : SameRoot s t) : s = .leaf k ↔ t = .leaf k := by
  rw [← label?_eq_some_iff, ← label?_eq_some_iff, h.2]

theorem SameRoot.isNonStationary_eq (h : SameRoot s t) :
    s.isNonStationary = t.isNonStationary := by
  cases s with
  | leaf k =>
    have ht : t = .leaf k := h.eq_leaf_iff.1 rfl
    rw [ht]
  | node c ss =>
    cases t with
    | leaf k => cases h.eq_leaf_iff.2 rfl
    | node d ts => rfl

section singleRbf

theorem singleRbf_of_not_mem (h : .leaf .rbf ∉ ts) : singleRbf ts = ts := by
  have hkept : ts.filter (· ≠ .leaf .rbf) = ts :=
    List.filter_eq_self.2 fun t ht ↦ by simpa using ne_of_mem_of_not_mem ht h
  have hnone : ts.filter (· = .leaf .rbf) = [] :=
    List.filter_eq_nil_iff.2 fun t ht ↦ by simpa using ne_of_mem_of_not_mem ht h
  rw [singleRbf, hkept, hnone, List.take_nil, List.append_nil]

theorem singleRbf_of_mem (h : .leaf .rbf ∈ ts) :
    singleRbf ts = ts.filter (· ≠ .leaf .rbf) ++ [.leaf .rbf] := by
  have hrbfs : (ts.filter (· = .leaf .rbf)).take 1 = [.leaf .rbf] := by
    have hne : ts.filter (· = .leaf .rbf) ≠ [] :=
      List.ne_nil_of_mem (List.mem_filter.2 ⟨h, decide_eq_true rfl⟩)
    obtain ⟨t, us, hus⟩ := List.exists_cons_of_ne_nil hne
    have ht : t ∈ ts.filter (· = .leaf .rbf) := by
      rw [hus]
      exact List.mem_cons_self
    rw [hus, of_decide_eq_true (List.mem_filter.1 ht).2]
    rfl
  rw [singleRbf, hrbfs]

theorem singleRbf_eq_self_iff : singleRbf ts = ts ↔ HasRbfLast ts := by
  by_cases hmem : .leaf .rbf ∈ ts
  · rw [singleRbf_of_mem hmem]
    constructor
    · intro h
      rw [← h, HasRbfLast, List.dropLast_concat]
      simp
    · intro h
      have hne : ts ≠ [] := List.ne_nil_of_mem hmem
      have hsplit : ts.dropLast ++ [ts.getLast hne] = ts := List.dropLast_append_getLast hne
      have hlast : ts.getLast hne = .leaf .rbf := by
        rw [← hsplit, List.mem_append, List.mem_singleton] at hmem
        exact (hmem.resolve_left h).symm
      have hkept : ts.filter (· ≠ .leaf .rbf) = ts.dropLast := by
        have hdrop : ts.dropLast.filter (· ≠ .leaf .rbf) = ts.dropLast :=
          List.filter_eq_self.2 fun t ht ↦ by simpa using ne_of_mem_of_not_mem ht h
        conv_lhs => rw [← hsplit, hlast]
        rw [List.filter_append, hdrop]
        simp
      rw [hkept]
      conv_rhs => rw [← hsplit, hlast]
  · rw [singleRbf_of_not_mem hmem]
    exact iff_of_true rfl fun h ↦ hmem (List.dropLast_subset ts h)

theorem hasRbfLast_singleRbf (ts : List KernelTree) : HasRbfLast (singleRbf ts) := by
  by_cases hmem : .leaf .rbf ∈ ts
  · rw [singleRbf_of_mem hmem, HasRbfLast, List.dropLast_concat]
    simp
  · rw [singleRbf_of_not_mem hmem]
    exact fun h ↦ hmem (List.dropLast_subset ts h)

theorem singleRbf_map {g : KernelTree → KernelTree} (h : ∀ t ∈ ts, SameRoot (g t) t) :
    singleRbf (ts.map g) = (singleRbf ts).map g := by
  have hkept : ts.filter (fun t ↦ g t ≠ .leaf .rbf) = ts.filter (· ≠ .leaf .rbf) :=
    List.filter_congr fun t ht ↦ by simp only [ne_eq, (h t ht).eq_leaf_iff]
  have hrbfs : ts.filter (fun t ↦ g t = .leaf .rbf) = ts.filter (· = .leaf .rbf) :=
    List.filter_congr fun t ht ↦ by simp only [(h t ht).eq_leaf_iff]
  simp only [singleRbf, List.filter_map, List.map_append, List.map_take, Function.comp_def, hkept,
    hrbfs]

theorem isSelection_singleRbf : IsSelection singleRbf where
  subset := singleRbf_subset
  idem ts := singleRbf_eq_self_iff.2 (hasRbfLast_singleRbf ts)
  map_of_sameRoot := singleRbf_map
  ne_nil {ts} hne := by
    by_cases hmem : .leaf .rbf ∈ ts
    · rw [singleRbf_of_mem hmem]
      simp
    · rwa [singleRbf_of_not_mem hmem]
  isLeaf_of_eq_singleton {ts t} hlength ht := by
    by_cases hmem : .leaf .rbf ∈ ts
    · rw [singleRbf_of_mem hmem] at ht
      have hlast := congrArg List.getLast? ht
      rw [List.getLast?_concat, List.getLast?_singleton, Option.some_inj] at hlast
      rw [← hlast]
      rfl
    · rw [singleRbf_of_not_mem hmem] at ht
      rw [ht, List.length_singleton] at hlength
      omega

end singleRbf

section absorbIntoWhite

theorem absorbIntoWhite_of_mem (h : .leaf .white ∈ ts) :
    absorbIntoWhite ts = .leaf .white :: ts.filter isNonStationary := if_pos h

theorem absorbIntoWhite_of_not_mem (h : .leaf .white ∉ ts) : absorbIntoWhite ts = ts := if_neg h

theorem absorbIntoWhite_eq_self_iff : absorbIntoWhite ts = ts ↔ HasWhiteFirst ts := by
  constructor
  · intro h hmem
    rw [absorbIntoWhite_of_mem hmem] at h
    exact ⟨_, h.symm, fun u hu ↦ (List.mem_filter.1 hu).2⟩
  · intro h
    by_cases hmem : .leaf .white ∈ ts
    · obtain ⟨us, rfl, hus⟩ := h hmem
      rw [absorbIntoWhite_of_mem hmem, List.filter_cons_of_neg (by decide),
        List.filter_eq_self.2 hus]
    · exact absorbIntoWhite_of_not_mem hmem

theorem hasWhiteFirst_absorbIntoWhite (ts : List KernelTree) :
    HasWhiteFirst (absorbIntoWhite ts) := by
  intro hwhite
  by_cases hmem : .leaf .white ∈ ts
  · rw [absorbIntoWhite_of_mem hmem]
    exact ⟨_, rfl, fun u hu ↦ (List.mem_filter.1 hu).2⟩
  · rw [absorbIntoWhite_of_not_mem hmem] at hwhite
    exact absurd hwhite hmem

theorem absorbIntoWhite_map {g : KernelTree → KernelTree} (h : ∀ t ∈ ts, SameRoot (g t) t) :
    absorbIntoWhite (ts.map g) = (absorbIntoWhite ts).map g := by
  have hwhite : .leaf .white ∈ ts.map g ↔ .leaf .white ∈ ts := by
    rw [List.mem_map]
    constructor
    · intro hmem
      obtain ⟨t, ht, hgt⟩ := hmem
      rwa [← (h t ht).eq_leaf_iff.1 hgt]
    · intro hmem
      exact ⟨_, hmem, (h _ hmem).eq_leaf_iff.2 rfl⟩
  by_cases hmem : .leaf .white ∈ ts
  · have hkept : ts.filter (isNonStationary ∘ g) = ts.filter isNonStationary :=
      List.filter_congr fun t ht ↦ (h t ht).isNonStationary_eq
    have hgwhite : g (.leaf .white) = .leaf .white := (h _ hmem).eq_leaf_iff.2 rfl
    rw [absorbIntoWhite_of_mem (hwhite.2 hmem), absorbIntoWhite_of_mem hmem, List.map_cons,
      hgwhite, List.filter_map, hkept]
  · rw [absorbIntoWhite_of_not_mem (mt hwhite.1 hmem), absorbIntoWhite_of_not_mem hmem]

theorem isSelection_absorbIntoWhite : IsSelection absorbIntoWhite where
  subset := absorbIntoWhite_subset
  idem ts := absorbIntoWhite_eq_self_iff.2 (hasWhiteFirst_absorbIntoWhite ts)
  map_of_sameRoot := absorbIntoWhite_map
  ne_nil {ts} hne := by
    by_cases hmem : .leaf .white ∈ ts
    · rw [absorbIntoWhite_of_mem hmem]
      exact List.cons_ne_nil _ _
    · rwa [absorbIntoWhite_of_not_mem hmem]
  isLeaf_of_eq_singleton {ts t} hlength ht := by
    by_cases hmem : .leaf .white ∈ ts
    · rw [absorbIntoWhite_of_mem hmem] at ht
      rw [← (List.cons.inj ht).1]
      rfl
    · rw [absorbIntoWhite_of_not_mem hmem] at ht
      rw [ht, List.length_singleton] at hlength
      omega

/-- White noise takes up no factor that would have to be one of several RBF factors. -/
theorem singleRbf_absorbIntoWhite (h : singleRbf ts = ts) :
    singleRbf (absorbIntoWhite ts) = absorbIntoWhite ts := by
  by_cases hmem : .leaf .white ∈ ts
  · apply singleRbf_of_not_mem
    rw [absorbIntoWhite_of_mem hmem, List.mem_cons, List.mem_filter]
    simp [isNonStationary, BaseKernel.isStationary, BaseKernel.spec]
  · rwa [absorbIntoWhite_of_not_mem hmem]

end absorbIntoWhite

end CovarianceSearch.KernelTree
