import CovarianceSearch.Proofs.Grammar.Extent
import CovarianceSearch.Proofs.Search.Subjects
import CovarianceSearch.Proofs.Search.Success

namespace CovarianceSearch.Search

variable {M : Type} {search : Search M} {depth : Nat}

theorem isInvariant_fits : search.IsInvariant fun n t ↦ t.terms.Fits (2 ^ n) (n + 1) where
  seed k _ := Terms.fits_single k
  mono hmn ht := ht.mono (Nat.pow_le_pow_right Nat.two_pos hmn) (Nat.add_le_add_right hmn 1)
  simplify hvalid ht := by
    rw [hvalid.terms_simplify]
    exact ht.reduce
  step hvalid ht hstep := by
    rw [Nat.pow_succ, Nat.mul_comm]
    exact hstep.fits hvalid (Nat.two_pow_pos _) ht

variable [Model M] {xs ys : List Float} {cancelled : Nat → Bool} {deviates : Nat → Deviates}
  {batches : List (List KernelTree)} {s : State}

theorem Reaches.hasExtent (hnamed : search.IsNamed)
    (h : search.Reaches xs ys cancelled deviates depth batches s) :
    ∀ e ∈ s.table.entries, e.tree.HasExtent (2 ^ (e.depth + 1)) (e.depth + 2) := by
  intro e he
  have hinvariant : search.IsInvariant fun n t ↦ t.terms.Fits (2 ^ n) (n + 1) := isInvariant_fits
  have hdescends := h.descends hinvariant hnamed e he
  have hfits := hinvariant.mono (Nat.min_le_right _ _) (hinvariant.tree hdescends)
  obtain ⟨t, -, htree, hvalid, -⟩ := hdescends
  have hexpanded : e.tree.IsExpanded := htree ▸ hvalid.isExpanded_simplify
  exact hexpanded.hasExtent hfits

/-- No entry has more than twice the terms of what it was expanded from, nor a term that is longer
by more than one base kernel, so both are bounded by the depth at which it came up. -/
theorem table_grows_at_bounded_rate {config : Config} {backend : Backend M} {metric : Metric M}
    (hcreate : create config backend metric = .ok search) (xs ys : List Float)
    (cancelled : Nat → Bool) (deviates : Nat → Deviates) :
    (∀ depth batches s, search.Reaches xs ys cancelled deviates depth batches s →
      ∀ e ∈ s.table.entries, e.tree.HasExtent (2 ^ (e.depth + 1)) (e.depth + 2)) ∧
    ∀ r, search.run xs ys cancelled deviates = .ok r →
      ∀ e ∈ r.final.table.entries, e.tree.HasExtent (2 ^ (e.depth + 1)) (e.depth + 2) := by
  obtain ⟨hnamed, -⟩ := create_eq_ok hcreate
  refine ⟨fun depth batches s hs ↦ hs.hasExtent hnamed, fun r hr ↦ ?_⟩
  obtain ⟨depth, batches, s, hs, htable⟩ := exists_reaches_of_run hr
  rw [htable]
  exact hs.hasExtent hnamed

theorem smallSearch_grows_at_bounded_rate :
    create (smallConfig .text 1) smallBackend smallMetric = .ok (smallSearch .text 1) ∧
      ∃ r, (smallSearch .text 1).run [0.0, 1.0] [0.0, 1.0] (fun _ ↦ false)
          (fun _ _ _ ↦ 0.0) = .ok r ∧
        ∀ e ∈ r.final.table.entries, e.tree.HasExtent (2 ^ (e.depth + 1)) (e.depth + 2) := by
  have hcreate := create_smallConfig .text 1
  obtain ⟨-, hrun⟩ := table_grows_at_bounded_rate hcreate [0.0, 1.0] [0.0, 1.0] (fun _ ↦ false)
    fun _ _ _ ↦ 0.0
  obtain ⟨r, hr⟩ := exists_run_smallSearch .text 1 (by decide) (fun _ ↦ false) fun _ _ _ ↦ 0.0
  exact ⟨hcreate, r, hr, hrun r hr⟩

end CovarianceSearch.Search
