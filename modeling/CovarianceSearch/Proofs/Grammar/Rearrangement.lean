import CovarianceSearch.Proofs.Grammar.Congruence
import CovarianceSearch.Proofs.KernelTree.Idempotence
import CovarianceSearch.Proofs.KernelTree.Parts

namespace CovarianceSearch

namespace KernelTree

/-- The form in which a search over trees keeps its structures. -/
structure IsStored (t : KernelTree) : Prop where
  valid : t.IsValid
  simplify_eq : t.simplify = t
  sums : t.HasProperSums

theorem isStored_leaf (k : BaseKernel) : IsStored (.leaf k) := ⟨isValid_leaf k, rfl, trivial⟩

theorem IsValid.isStored_simplify {t : KernelTree} (h : t.IsValid) (hsums : t.HasProperSums) :
    IsStored t.simplify :=
  ⟨h.isValid_simplify, (isSimplified_simplify t).simplify_eq, h.hasProperSums_simplify hsums⟩

theorem IsStored.perm_keys_decompose {t u : KernelTree} (ht : t.IsStored) (hu : u.IsStored)
    (h : Alike t u) :
    (t.decompose.map (·.simplify.text)).Perm (u.decompose.map (·.simplify.text)) := by
  have hperm := KernelTree.perm_keys_decompose h ht.sums hu.sums
  rwa [ht.simplify_eq, hu.simplify_eq] at hperm

end KernelTree

namespace Palette

open KernelTree

variable {p p' : Palette} {s t u : KernelTree}

theorem hasProperSums_of_mem_treeSteps (ht : t.IsValid) (hsums : t.HasProperSums)
    (hs : s ∈ p.treeSteps t) : s.HasProperSums := by
  have hleaf (k : BaseKernel) : IsValid (.leaf k) := isValid_leaf k
  rcases mem_treeSteps hs with ⟨k, -, rfl | rfl | rfl | rfl⟩ | hs
  · trivial
  · exact hasProperSums_combine ht (hleaf k) hsums trivial
  · exact hasProperSums_combine ht (hleaf k) hsums trivial
  · have hfactor : IsValid (.node .sum [.leaf k, .leaf .constant]) :=
      isValid_sumNode (by simp) (by simp [isValid_leaf])
    exact hasProperSums_combine ht hfactor hsums (by simp)
  · exact hsums.of_mem_decompose hs

theorem isStored_simplify_of_mem_treeSteps (ht : t.IsStored) (hs : s ∈ p.treeSteps t) :
    s.simplify.IsStored :=
  (isValid_of_mem_treeSteps ht.valid hs).isStored_simplify
    (hasProperSums_of_mem_treeSteps ht.valid ht.sums hs)

structure Rearranges (p p' : Palette) : Prop where
  baseKernels : p.baseKernels.Perm p'.baseKernels
  excluded : p.excluded = p'.excluded
  laxConstant : p.laxConstant = p'.laxConstant

theorem Rearranges.symm (h : p.Rearranges p') : p'.Rearranges p :=
  ⟨h.baseKernels.symm, h.excluded.symm, h.laxConstant.symm⟩

theorem Rearranges.perm_active (h : p.Rearranges p') : p.active.Perm p'.active := by
  rw [active, active, h.excluded]
  exact h.baseKernels.filter _

theorem Rearranges.mem_lax_iff (h : p.Rearranges p') (k : BaseKernel) : k ∈ p.lax ↔ k ∈ p'.lax := by
  rw [lax, lax, h.laxConstant]
  exact (h.perm_active.filter _).mem_iff

theorem Rearranges.treeVariants_eq (h : p.Rearranges p') (t : KernelTree) :
    p.treeVariants t = p'.treeVariants t := by
  funext k
  simp only [treeVariants, h.mem_lax_iff k]

theorem Rearranges.perm_grown (h : p.Rearranges p') (t : KernelTree) :
    (p.grown t).Perm (p'.grown t) := by
  rw [grown, grown, h.treeVariants_eq]
  exact (h.perm_active.map _).append (h.perm_active.flatMap_right _)

/-- The keys that a tree is expanded to depend on its own key and on which base kernels there are,
but not on the order of its operands or of the base kernels. -/
theorem Rearranges.perm_keys_treeSteps (h : p.Rearranges p') (ht : t.IsStored) (hu : u.IsStored)
    (halike : Alike t u) : ((p.treeSteps t).map (·.simplify.text)).Perm
      ((p'.treeSteps u).map (·.simplify.text)) := by
  rw [treeSteps_eq, treeSteps_eq, List.map_append, List.map_append]
  have hgrown : ((p.grown t).map (·.simplify.text)).Perm ((p'.grown u).map (·.simplify.text)) := by
    rw [map_text_simplify_congr (grown_alike halike)]
    exact (h.perm_grown u).map _
  exact hgrown.append (ht.perm_keys_decompose hu halike)

/-- The trees that a depth looks at: those expanded from its frontier and, where a full expansion
comes first, those expanded from the base kernels. -/
def frontierSteps (p : Palette) (full : Bool) (frontier : List KernelTree) : List KernelTree :=
  frontier.flatMap p.treeSteps ++
    if full then p.active.flatMap fun k ↦ p.treeSteps (.leaf k) else []

theorem isStored_simplify_of_mem_frontierSteps {full : Bool} {frontier : List KernelTree}
    (hfrontier : ∀ t ∈ frontier, t.IsStored) (hs : s ∈ p.frontierSteps full frontier) :
    s.simplify.IsStored := by
  rcases List.mem_append.1 hs with hs | hs
  · obtain ⟨t, ht, hs⟩ := List.mem_flatMap.1 hs
    exact isStored_simplify_of_mem_treeSteps (hfrontier t ht) hs
  · cases full with
    | false => cases hs
    | true =>
      obtain ⟨k, -, hs⟩ := List.mem_flatMap.1 hs
      exact isStored_simplify_of_mem_treeSteps (isStored_leaf k) hs

theorem perm_map_flatMap {α β : Type} {R : α → α → Prop} {f g : α → List KernelTree}
    {key : KernelTree → β} (hfg : ∀ {a b}, R a b → ((f a).map key).Perm ((g b).map key))
    {as bs : List α} (h : List.Forall₂ R as bs) :
    ((as.flatMap f).map key).Perm ((bs.flatMap g).map key) := by
  induction h with
  | nil => exact .refl _
  | cons hab _ ih =>
    simp only [List.flatMap_cons, List.map_append]
    exact (hfg hab).append ih

theorem Rearranges.perm_keys_frontierSteps (h : p.Rearranges p') (full : Bool)
    {ts us : List KernelTree}
    (hfrontier : List.Forall₂ (fun t u ↦ t.IsStored ∧ u.IsStored ∧ Alike t u) ts us) :
    ((p.frontierSteps full ts).map (·.simplify.text)).Perm
      ((p'.frontierSteps full us).map (·.simplify.text)) := by
  rw [frontierSteps, frontierSteps, List.map_append, List.map_append]
  refine List.Perm.append ?_ ?_
  · exact perm_map_flatMap (fun ⟨ht, hu, halike⟩ ↦ h.perm_keys_treeSteps ht hu halike) hfrontier
  · cases full with
    | false => exact .refl _
    | true =>
      simp only [if_true, List.map_flatMap]
      refine h.perm_active.flatMap fun k _ ↦ ?_
      exact h.perm_keys_treeSteps (isStored_leaf k) (isStored_leaf k) (isValid_leaf k).alike

end Palette

end CovarianceSearch
