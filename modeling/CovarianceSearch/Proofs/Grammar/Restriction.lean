import CovarianceSearch.Proofs.Grammar.Steps
import CovarianceSearch.Proofs.KernelTree.Labels

namespace CovarianceSearch

open KernelTree

namespace Palette

/-- The base kernels that an expansion can bring in: the active ones, and the constant of the lax
products. -/
def inserted (p : Palette) : Set BaseKernel :=
  {k | k ∈ p.active ∨ k = .constant ∧ p.lax ≠ []}

variable {p : Palette} {allowed : Set BaseKernel}

/-- The constant is active itself if it is the only kernel that makes no lax product. -/
theorem constant_mem_inserted {k : BaseKernel} (hk : k ∈ p.active) : .constant ∈ p.inserted := by
  by_cases hlax : k ∈ p.lax
  · exact .inr ⟨rfl, List.ne_nil_of_mem hlax⟩
  · have hconstant : k = .constant := by
      by_contra hne
      exact hlax (List.mem_filter.2 ⟨hk, by simp [hne]⟩)
    exact .inl (hconstant ▸ hk)

end Palette

namespace Expression

variable {allowed : Set BaseKernel} {e t : Expression}

theorem usesOnly_of_mem_terms (h : e.toTree.UsesOnly allowed) (ht : t ∈ e.terms) :
    t.toTree.UsesOnly allowed := by
  induction e with
  | add l r ihl =>
    obtain ⟨hl, hr⟩ := usesOnly_combine_pair_iff.1 h
    rcases List.mem_append.1 ht with ht | ht
    · exact ihl hl ht
    · rwa [List.mem_singleton.1 ht]
  | _ => rwa [List.mem_singleton.1 ht]

theorem usesOnly_of_mem_operands (h : e.toTree.UsesOnly allowed) (ht : t ∈ e.operands) :
    t.toTree.UsesOnly allowed := by
  cases e with
  | add l r => exact usesOnly_of_mem_terms (e := .add l r) h ht
  | mul l r =>
    obtain ⟨hl, hr⟩ := usesOnly_combine_pair_iff.1 h
    rcases List.mem_pair.1 ht with rfl | rfl
    · exact hl
    · exact hr
  | laxMul l a b =>
    obtain ⟨hl, hr⟩ := usesOnly_combine_pair_iff.1 h
    rcases List.mem_pair.1 ht with rfl | rfl
    · exact hl
    · exact hr
  | _ => rwa [List.mem_singleton.1 ht]

end Expression

theorem KernelTree.HasPart.usesOnly {allowed : Set BaseKernel} {t s : KernelTree}
    (h : t.HasPart s) (ht : t.UsesOnly allowed) : s.UsesOnly allowed := by
  cases h with
  | tree hs => exact ht.of_mem_decompose hs
  | text ho => exact Expression.usesOnly_of_mem_operands ht ho

theorem Palette.Steps.usesOnly {p : Palette} {allowed : Set BaseKernel} {t s : KernelTree}
    (h : p.Steps t s) (hsub : p.inserted ⊆ allowed) (ht : t.UsesOnly allowed) :
    s.UsesOnly allowed := by
  rcases h.cases with ⟨k, hk, hs⟩ | hpart
  · have hleaf : UsesOnly allowed (.leaf k) := usesOnly_leaf_iff.2 (hsub (.inl hk))
    have hlax : UsesOnly allowed (.node .sum [.leaf k, .leaf .constant]) := by
      have hconstant : UsesOnly allowed (.leaf .constant) :=
        usesOnly_leaf_iff.2 (hsub (constant_mem_inserted hk))
      exact usesOnly_node_iff.2 (by simpa using ⟨hleaf, hconstant⟩)
    rcases hs with rfl | rfl | rfl | rfl
    · exact hleaf
    · exact usesOnly_combine_pair_iff.2 ⟨ht, hleaf⟩
    · exact usesOnly_combine_pair_iff.2 ⟨ht, hleaf⟩
    · exact usesOnly_combine_pair_iff.2 ⟨ht, hlax⟩
  · exact hpart.usesOnly ht

/-- An expansion uses the base kernels of what is expanded, and those that it brings in. -/
theorem Grammar.exists_subject_of_expand {g : Grammar} {e : Entry} (hg : g.palette.IsNamed)
    {cs : List Candidate} (h : g.expand e = .ok cs) :
    ∃ t ∈ g.subject? e, ∀ allowed, g.palette.inserted ⊆ allowed →
      t.UsesOnly allowed → ∀ c ∈ cs, c.tree.UsesOnly allowed := by
  obtain ⟨t, hsubject, hsteps⟩ := exists_steps_of_expand hg h
  exact ⟨t, hsubject, fun allowed hsub ht c hc ↦ (hsteps c hc).usesOnly hsub ht⟩

end CovarianceSearch
