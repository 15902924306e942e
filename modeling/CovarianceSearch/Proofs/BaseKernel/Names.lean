import CovarianceSearch.Proofs.Expression.Scan

namespace CovarianceSearch

namespace Token

theorem scan_name (k : BaseKernel) (position : ℕ) :
    scan position k.name.toList = .ok [.name k.name] := by
  have hscans := Scans.baseKernel k (by simp) .nil
  rw [List.append_nil] at hscans
  exact hscans.scan_eq position

end Token

namespace BaseKernel

theorem isNamed_iff {k : BaseKernel} :
    k.IsNamed ↔ ∀ degree, k = .polynomial degree → 1 ≤ degree := by
  cases k with
  | polynomial degree =>
    have hpos : degree ≠ 0 ↔ 1 ≤ degree := by
      rw [Ne, ← UInt32.toNat_inj, UInt32.le_iff_toNat_le]
      exact Nat.one_le_iff_ne_zero.symm
    simpa [IsNamed] using hpos
  | _ => simp [IsNamed]

/-- A kernel is found by its name unless it is a polynomial of degree zero, no two kernels share a
name, and every name is read as one token. The texts that kernels are found by are their spellings,
and each kernel with a spelling is found by its name, too. -/
theorem names_are_faithful :
    (∀ k : BaseKernel, (∀ degree, k = .polynomial degree → 1 ≤ degree) →
      ofName? k.name = some k) ∧
    Function.Injective name ∧
    (∀ (k : BaseKernel) (position : ℕ),
      Token.scan position k.name.toList = .ok [.name k.name]) ∧
    ∀ (s : String) (k : BaseKernel), (ofName? s = some k ↔ Spells s k) ∧
      (ofName? s = some k →
        (∀ degree, k = .polynomial degree → 1 ≤ degree) ∧ ofName? k.name = some k) := by
  refine ⟨fun k hk ↦ ofName?_name (isNamed_iff.2 hk), name_injective, Token.scan_name, ?_⟩
  intro s k
  refine ⟨ofName?_eq_some_iff, fun h ↦ ?_⟩
  have hnamed := isNamed_of_ofName? h
  exact ⟨isNamed_iff.1 hnamed, ofName?_name hnamed⟩

theorem names_are_faithful_linearPolynomial :
    Spells "polynomial" (.polynomial 1) ∧ Spells "polynomial+001" (.polynomial 1) ∧
      (polynomial 1).name = "polynomial" ∧ ofName? (polynomial 1).name = some (.polynomial 1) ∧
      ofName? "polynomial4294967295" = some (.polynomial 4294967295) ∧
      Token.scan 3 "polynomial4294967295".toList = .ok [.name "polynomial4294967295"] ∧
      (polynomial 0).name ≠ (polynomial 1).name := by
  obtain ⟨hfound, hinjective, htoken, hspelled⟩ := names_are_faithful
  have hplain : ofName? "polynomial" = some (.polynomial 1) := by decide
  have hsigned : ofName? "polynomial+001" = some (.polynomial 1) := by decide
  have hgreatest : (polynomial 4294967295).name = "polynomial4294967295" := by decide
  refine ⟨(hspelled _ _).1.1 hplain, (hspelled _ _).1.1 hsigned, by decide,
    ((hspelled _ _).2 hsigned).2, ?_, ?_, hinjective.ne (by decide)⟩
  · rw [← hgreatest]
    apply hfound
    rintro degree h
    cases h
    decide
  · rw [← hgreatest]
    exact htoken _ 3

end BaseKernel

end CovarianceSearch
