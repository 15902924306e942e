import CovarianceSearch.Proofs.Grammar.Steps
import CovarianceSearch.Proofs.KernelTree.Extent

namespace CovarianceSearch

namespace Expression

open KernelTree

variable {e o : Expression}

theorem exists_terms_eq_add (ho : o ∈ e.terms) :
    ∃ u, e.toTree.terms = o.toTree.terms + u := by
  induction e with
  | add l r ihl =>
    rw [toTree, terms_sum_pair]
    rcases List.mem_append.1 ho with ho | ho
    · obtain ⟨u, hu⟩ := ihl ho
      exact ⟨u + r.toTree.terms, by rw [hu, add_assoc]⟩
    · rw [List.mem_singleton.1 ho]
      exact ⟨l.toTree.terms, add_comm _ _⟩
  | _ =>
    rw [List.mem_singleton.1 ho]
    exact ⟨0, (add_zero _).symm⟩

theorem summand_or_factor_of_mem_operands (ho : o ∈ e.operands) :
    (∃ u, e.toTree.terms = o.toTree.terms + u) ∨ o.toTree.terms ∣ e.toTree.terms := by
  cases e with
  | add l r => exact .inl (exists_terms_eq_add (e := .add l r) ho)
  | mul l r =>
    right
    rw [toTree, terms_product_pair]
    rcases List.mem_pair.1 ho with rfl | rfl
    · exact dvd_mul_right _ _
    · exact dvd_mul_left _ _
  | laxMul l a b =>
    right
    rw [toTree, terms_product_pair]
    rcases List.mem_pair.1 ho with rfl | rfl
    · exact dvd_mul_right _ _
    · exact dvd_mul_left _ _
  | _ => exact .inr (List.mem_singleton.1 ho ▸ dvd_refl _)

end Expression

namespace KernelTree

variable {s t : KernelTree} {n d : ℕ}

theorem HasPart.fits (h : t.HasPart s) (ht : t.IsValid) (hfits : t.terms.Fits n d) :
    s.terms.Fits n d := by
  have hpart : (∃ u, t.terms = s.terms + u) ∨ s.terms ∣ t.terms := by
    cases h with
    | tree hs => exact summand_or_factor_of_mem_decompose hs
    | text ho => exact Expression.summand_or_factor_of_mem_operands ho
  have hne := ht.monomials_terms_ne_zero
  rcases hpart with ⟨u, hu⟩ | ⟨u, hu⟩
  · rw [hu] at hfits
    exact hfits.of_add
  · rw [hu] at hfits hne
    exact hfits.of_mul hne

end KernelTree

open KernelTree

/-- One step at most doubles the terms of a tree and lengthens each by one factor. -/
theorem Palette.Steps.fits {p : Palette} {t s : KernelTree} {n d : ℕ} (h : p.Steps t s)
    (ht : t.IsValid) (hn : 0 < n) (hfits : t.terms.Fits n d) : s.terms.Fits (2 * n) (d + 1) := by
  have hleaf (k : BaseKernel) : (terms (.leaf k)).Fits 1 1 := Terms.fits_single k
  rcases h.cases with ⟨k, -, rfl | rfl | rfl | rfl⟩ | hpart
  · exact (hleaf k).mono (by omega) (by omega)
  · rw [terms_sum_pair]
    exact ((hfits.mono le_rfl (Nat.le_succ d)).add ((hleaf k).mono le_rfl (by omega))).mono
      (by omega) le_rfl
  · rw [terms_product_pair]
    exact (hfits.mul (hleaf k)).mono (by omega) le_rfl
  · have hfactor : (terms (.sum [.leaf k, .leaf .constant])).Fits 2 1 := by
      rw [terms_sum_pair]
      exact (hleaf k).add (hleaf .constant)
    rw [terms_product_pair]
    exact (hfits.mul hfactor).mono (by omega) le_rfl
  · exact (hpart.fits ht hfits).mono (by omega) (Nat.le_succ d)

end CovarianceSearch
