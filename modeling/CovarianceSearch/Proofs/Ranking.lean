import CovarianceSearch.Proofs.Evaluation.Reproduction
import CovarianceSearch.Proofs.FloatSign
import CovarianceSearch.Proofs.GaussianProcess.Overwriting
import CovarianceSearch.Proofs.KernelTree.Unregistered
import CovarianceSearch.Proofs.Ranked
import CovarianceSearch.Ranking

namespace CovarianceSearch

namespace FloatSign

open Float.Model UnpackedFloat

variable {x : Float}

theorem isNaN_sub_infinity (hx : x.isFinite = true) : (x - Entry.infinity).isNaN = false := by
  have hsub : (UnpackedFloat.sub .binary64 x.toModel.unpack
      Entry.infinity.toModel.unpack).isNaN = false := by
    rw [Entry.unpack_infinity]
    rcases exists_unpack_of_isFinite hx with ⟨s, hs⟩ | ⟨s, m, e, hm, hs⟩
    · rw [hs]
      rfl
    · rw [hs]
      rfl
  obtain ⟨s, hs⟩ := isNaN_eq_false_iff.1 hsub
  exact isNaN_eq_false_iff.2 ⟨s, (sign?_unpack_pack _).trans hs⟩

theorem isNaN_abs (h : x.isNaN = false) : x.abs.isNaN = false := isNaN_of_sign? (sign?_abs_float h)

end FloatSign

theorem Kernel.changes_toTree {R : Type} (k : Kernel R) : k.toTree.changes = [] := by
  induction k using OpTree.induction with
  | leaf f => rfl
  | node op ks ih =>
    rw [toTree, OpTree.map_node, KernelTree.changes_node (by cases op <;> decide),
      List.flatMap_map, List.flatMap_eq_nil_iff]
    exact ih

namespace Ranking

variable {M : Type} [Model M] {backend : Backend M} {metric : Metric M} {m : M}
  {modelScore score : Float} {k : Kernel Float} {summands : List (Kernel Float)}

def IsRemainder (rest : List (Kernel Float)) (k : Kernel Float) : Prop :=
  rest = [k] ∨ rest.length ≠ 1 ∧ k = .node .sum rest

/-- The model `reduced` is built from the data of `m` with the kernel `k`, and has the noise of `m`
if that has one. -/
def Reduces (backend : Backend M) (m : M) (k : Kernel Float) (reduced : M) : Prop :=
  ∃ built, backend.build (Model.inputs m) (Model.targets m) k = .ok built ∧
    ((Model.parameters m).get? GaussianProcess.noisePath = none ∧ reduced = built ∨
      ∃ noise, (Model.parameters m).get? GaussianProcess.noisePath = some noise ∧
        Model.assign built (.ofList [(GaussianProcess.noisePath, noise)]) = .ok reduced)

/-- The score of `m` reduced to the kernel `k`, which is infinite if there is no other one. -/
def IsReducedScore (backend : Backend M) (metric : Metric M) (m : M) (k : Kernel Float)
    (score : Float) : Prop :=
  (∃ reduced, Reduces backend m k reduced ∧ metric.score reduced = .ok score) ∨
    score = Entry.infinity ∧
      ¬ ∃ reduced s, Reduces backend m k reduced ∧ metric.score reduced = .ok s

structure IsImpact (backend : Backend M) (metric : Metric M) (m : M) (modelScore : Float)
    (summands : List (Kernel Float)) (i : ℕ) (v : Impact) : Prop where
  component : ∃ k, summands[i]? = some k ∧ k.toTree.text = .ok v.component
  impact : ∃ k score, IsRemainder (summands.eraseIdx i) k ∧
    IsReducedScore backend metric m k score ∧ v.impact = (modelScore - score).abs

/-- The summands of `m` with their impacts, each of them once, from the greatest impact to the least
and then in the order of the sum. -/
structure IsRanking (backend : Backend M) (metric : Metric M) (m : M) (modelScore : Float)
    (summands : List (Kernel Float)) (placed : List (Impact × ℕ)) : Prop where
  places : (placed.map Prod.snd).Perm (List.range summands.length)
  impacts : ∀ p ∈ placed, IsImpact backend metric m modelScore summands p.2 p.1
  numbers : ∀ p ∈ placed, p.1.impact.isNaN = false
  ordered : placed.Pairwise fun p q ↦ q.1.impact ≤ p.1.impact ∧
    (p.1.impact ≤ q.1.impact → p.2 < q.2)

/-- No model that `m` is reduced to comes to an input that no target belongs to, and the scores of
these models are finite. -/
structure Returns (backend : Backend M) (metric : Metric M) (m : M) : Prop where
  build : ∀ k, backend.build (Model.inputs m) (Model.targets m) k ≠ .error .missingTarget
  assign : ∀ k built, backend.build (Model.inputs m) (Model.targets m) k = .ok built →
    ∀ values, Model.assign built values ≠ .error .missingTarget
  score : ∀ k reduced, Reduces backend m k reduced → metric.score reduced ≠ .error .missingTarget
  finite : ∀ k reduced, Reduces backend m k reduced →
    ∀ s, metric.score reduced = .ok s → s.isFinite = true

theorem isRemainder_without (summands : List (Kernel Float)) (i : ℕ) :
    IsRemainder (summands.eraseIdx i) (without summands i) := by
  unfold without
  split
  · next k hk => exact .inl hk
  · next hrest =>
    refine .inr ⟨fun hlength ↦ ?_, rfl⟩
    obtain ⟨k, hk⟩ := List.length_eq_one_iff.1 hlength
    exact hrest k hk

theorem exists_nameOf (k : Kernel Float) :
    ∃ name, k.toTree.text = .ok name ∧ nameOf k = .ok name := by
  obtain ⟨name, hname⟩ := KernelTree.exists_textWithin_iff.2 k.changes_toTree
  refine ⟨name, hname, ?_⟩
  rw [nameOf, KernelTree.text, hname]
  rfl

theorem scoreWith_eq_ok_iff : scoreWith backend metric m k = .ok score ↔
    ∃ reduced, Reduces backend m k reduced ∧ metric.score reduced = .ok score := by
  rw [scoreWith, Outcome.bind_eq_ok_iff]
  constructor
  · rintro ⟨built, hbuilt, h⟩
    split at h
    · next noise hnoise =>
      obtain ⟨reduced, hassign, hscore⟩ := Outcome.bind_eq_ok_iff.1 h
      exact ⟨reduced, ⟨built, hbuilt, .inr ⟨noise, hnoise, hassign⟩⟩, hscore⟩
    · next hnone => exact ⟨built, ⟨built, hbuilt, .inl ⟨hnone, rfl⟩⟩, h⟩
  · rintro ⟨reduced, ⟨built, hbuilt, hnoise⟩, hscore⟩
    refine ⟨built, hbuilt, ?_⟩
    rcases hnoise with ⟨hnone, rfl⟩ | ⟨noise, hnoise, hassign⟩
    · simp only [hnone]
      exact hscore
    · simp only [hnoise]
      exact Outcome.bind_eq_ok_iff.2 ⟨reduced, hassign, hscore⟩

theorem scoreWith_ne_missingTarget (h : Returns backend metric m) (k : Kernel Float) :
    scoreWith backend metric m k ≠ .error .missingTarget := by
  apply Outcome.bind_ne_error (h.build k)
  intro built hbuilt
  split
  · next noise hnoise =>
    apply Outcome.bind_ne_error (h.assign k built hbuilt _)
    intro reduced hassign
    exact h.score k reduced ⟨built, hbuilt, .inr ⟨noise, hnoise, hassign⟩⟩
  · next hnone => exact h.score k built ⟨built, hbuilt, .inl ⟨hnone, rfl⟩⟩

theorem exists_reducedScore (h : Returns backend metric m) (k : Kernel Float) :
    ∃ score, scoreOrInfinity (scoreWith backend metric m k) = .ok score ∧
      IsReducedScore backend metric m k score := by
  cases hscore : scoreWith backend metric m k with
  | ok score => exact ⟨score, rfl, .inl (scoreWith_eq_ok_iff.1 hscore)⟩
  | error e =>
    cases e with
    | missingTarget => exact absurd hscore (scoreWith_ne_missingTarget h k)
    | fit e =>
      refine ⟨Entry.infinity, rfl, .inr ⟨rfl, ?_⟩⟩
      rintro ⟨reduced, score, hreduced⟩
      cases hscore.symm.trans (scoreWith_eq_ok_iff.2 ⟨reduced, hreduced⟩)

/-- The difference of a finite score and one that is finite or infinite is a number. -/
theorem IsReducedScore.isNaN_impact (h : Returns backend metric m)
    (hfinite : modelScore.isFinite = true) (hscore : IsReducedScore backend metric m k score) :
    (modelScore - score).abs.isNaN = false := by
  apply FloatSign.isNaN_abs
  rcases hscore with ⟨reduced, hreduced, hscore⟩ | ⟨rfl, -⟩
  · exact FloatSign.isNaN_sub hfinite (h.finite k reduced hreduced score hscore)
  · exact FloatSign.isNaN_sub_infinity hfinite

theorem IsImpact.isNaN (h : Returns backend metric m) (hfinite : modelScore.isFinite = true)
    {i : ℕ} {v : Impact} (hv : IsImpact backend metric m modelScore summands i v) :
    v.impact.isNaN = false := by
  obtain ⟨k, score, -, hscore, himpact⟩ := hv.impact
  rw [himpact]
  exact hscore.isNaN_impact h hfinite

def impactOf (backend : Backend M) (metric : Metric M) (m : M) (modelScore : Float)
    (summands : List (Kernel Float)) (p : Kernel Float × ℕ) : Except Error Impact := do
  let score ← scoreOrInfinity (scoreWith backend metric m (without summands p.2))
  return ⟨← nameOf p.1, (modelScore - score).abs⟩

theorem exists_impactOf (h : Returns backend metric m) (modelScore : Float)
    {p : Kernel Float × ℕ} (hp : p ∈ summands.zipIdx) :
    ∃ v, impactOf backend metric m modelScore summands p = .ok v ∧
      IsImpact backend metric m modelScore summands p.2 v := by
  obtain ⟨score, hok, hscore⟩ := exists_reducedScore h (without summands p.2)
  obtain ⟨name, htext, hname⟩ := exists_nameOf p.1
  refine ⟨⟨name, (modelScore - score).abs⟩, ?_, ?_, ?_⟩
  · rw [impactOf, hok]
    change nameOf p.1 >>= _ = _
    rw [hname]
    rfl
  · exact ⟨p.1, List.mem_zipIdx_iff_getElem?.1 hp, htext⟩
  · exact ⟨_, score, isRemainder_without summands p.2, hscore, rfl⟩

theorem rank_of_sum (hkernel : Model.kernel m = .node .sum summands)
    (hlength : 2 ≤ summands.length) : rank backend metric m modelScore = (summands.zipIdx.mapM
      (impactOf backend metric m modelScore summands)).map
        (StableSort.sort fun a b ↦ b.impact < a.impact) := by
  obtain ⟨k₁, k₂, ks, rfl⟩ : ∃ k₁ k₂ ks, summands = k₁ :: k₂ :: ks := by
    match summands, hlength with
    | k₁ :: k₂ :: ks, _ => exact ⟨k₁, k₂, ks, rfl⟩
  rw [rank, hkernel]
  change List.mapM (impactOf backend metric m modelScore (k₁ :: k₂ :: ks)) _ >>= _ = _
  cases (k₁ :: k₂ :: ks).zipIdx.mapM (impactOf backend metric m modelScore (k₁ :: k₂ :: ks)) <;> rfl

theorem rank_of_other (hkernel : ¬ ∃ summands, Model.kernel m = .node .sum summands ∧
    2 ≤ summands.length) : ∃ text, (Model.kernel m).toTree.text = .ok text ∧
      rank backend metric m modelScore = .error (.notDecomposable text) := by
  obtain ⟨text, htext, hname⟩ := exists_nameOf (Model.kernel m)
  refine ⟨text, htext, ?_⟩
  unfold rank
  split
  · next k₁ k₂ ks hk => exact absurd ⟨_, hk, Nat.le_add_left 2 _⟩ hkernel
  · rw [hname]
    rfl

/-- The impacts are sorted by their size, the greatest first, and then by their places. -/
theorem exists_order_sort_impacts {impacts : List Impact}
    (h : ∀ v ∈ impacts, v.impact.isNaN = false) :
    ∃ placed : List (Impact × ℕ), placed.Perm impacts.zipIdx ∧
      StableSort.sort (fun a b ↦ b.impact < a.impact) impacts = placed.map Prod.fst ∧
      placed.Pairwise fun p q ↦ q.1.impact ≤ p.1.impact ∧
        (p.1.impact ≤ q.1.impact → p.2 < q.2) := by
  have hless : ∀ v ∈ impacts, ∀ w ∈ impacts, decide (w.impact < v.impact) = true ↔
      OrderDual.toDual (FloatOrder.place v.impact) < OrderDual.toDual (FloatOrder.place w.impact) :=
    fun v hv w hw ↦ decide_eq_true_iff.trans
      ((FloatOrder.lt_iff_place_lt (h w hw) (h v hv)).trans OrderDual.toDual_lt_toDual.symm)
  obtain ⟨placed, hperm, hsort, hpairwise⟩ := StableSort.exists_order_sort _
    (fun v : Impact ↦ OrderDual.toDual (FloatOrder.place v.impact)) hless
  refine ⟨placed, hperm, hsort, hpairwise.imp_of_mem fun {p q} hp hq hpq ↦ ?_⟩
  have hp := h p.1 (List.fst_mem_of_mem_zipIdx (hperm.mem_iff.1 hp))
  have hq := h q.1 (List.fst_mem_of_mem_zipIdx (hperm.mem_iff.1 hq))
  rw [FloatOrder.le_iff_place_le hq hp, FloatOrder.le_iff_place_le hp hq]
  rcases hpq with hlt | ⟨heq, hplace⟩
  · have hlt := OrderDual.toDual_lt_toDual.1 hlt
    exact ⟨hlt.le, fun hle ↦ absurd hle hlt.not_ge⟩
  · exact ⟨(OrderDual.toDual_inj.1 heq).ge, fun _ ↦ hplace⟩

theorem exists_impacts (h : Returns backend metric m) (modelScore : Float)
    (summands : List (Kernel Float)) :
    ∃ impacts, summands.zipIdx.mapM (impactOf backend metric m modelScore summands) = .ok impacts ∧
      impacts.length = summands.length ∧
      ∀ p ∈ impacts.zipIdx, IsImpact backend metric m modelScore summands p.2 p.1 := by
  obtain ⟨impacts, himpacts⟩ := Outcome.exists_mapM_eq_ok
    fun p (hp : p ∈ summands.zipIdx) ↦ (exists_impactOf h modelScore hp).imp fun _ ↦ And.left
  have hall := Outcome.mapM_eq_ok_iff.1 himpacts
  have hlength : impacts.length = summands.length := by rw [← hall.length_eq, List.length_zipIdx]
  refine ⟨impacts, himpacts, hlength, ?_⟩
  rintro ⟨v, i⟩ hv
  have hget : impacts[i]? = some v := List.mem_zipIdx_iff_getElem?.1 hv
  obtain ⟨hi, rfl⟩ := List.getElem?_eq_some_iff.1 hget
  have hi' : i < summands.zipIdx.length := hall.length_eq ▸ hi
  have hok : impactOf backend metric m modelScore summands summands.zipIdx[i] = .ok impacts[i] :=
    hall.get hi' hi
  obtain ⟨w, hw, himpact⟩ := exists_impactOf h modelScore (List.getElem_mem hi')
  obtain rfl := Except.ok.inj (hok.symm.trans hw)
  simpa using himpact

theorem exists_ranking (h : Returns backend metric m) (hfinite : modelScore.isFinite = true)
    (hkernel : Model.kernel m = .node .sum summands) (hlength : 2 ≤ summands.length) :
    ∃ placed, rank backend metric m modelScore = .ok (placed.map Prod.fst) ∧
      IsRanking backend metric m modelScore summands placed := by
  obtain ⟨impacts, himpacts, hcount, hplaces⟩ := exists_impacts h modelScore summands
  have hnumbers : ∀ p ∈ impacts.zipIdx, p.1.impact.isNaN = false :=
    fun p hp ↦ (hplaces p hp).isNaN h hfinite
  have hnan : ∀ v ∈ impacts, v.impact.isNaN = false := by
    rwa [← List.zipIdx_map_fst 0 impacts, List.forall_mem_map]
  obtain ⟨placed, hperm, hsort, hordered⟩ := exists_order_sort_impacts hnan
  refine ⟨placed, ?_, ?_⟩
  · rw [rank_of_sum hkernel hlength, himpacts, ← hsort]
    rfl
  · constructor
    case places =>
      rw [← hcount, List.range_eq_range', ← List.zipIdx_map_snd]
      exact hperm.map Prod.snd
    case impacts => exact fun p hp ↦ hplaces p (hperm.mem_iff.1 hp)
    case numbers => exact fun p hp ↦ hnumbers p (hperm.mem_iff.1 hp)
    case ordered => exact hordered

/-- A ranking fails exactly if the kernel of the model is not a sum of at least two summands.
Otherwise it has each of them once, with the distance that the score moves when the model is built
anew without it. -/
theorem rank_is_complete_and_ordered (h : Returns backend metric m)
    (hfinite : modelScore.isFinite = true) :
    ((∃ text, rank backend metric m modelScore = .error (.notDecomposable text)) ↔
      ¬ ∃ summands, Model.kernel m = .node .sum summands ∧ 2 ≤ summands.length) ∧
    (∀ text, rank backend metric m modelScore = .error (.notDecomposable text) →
      (Model.kernel m).toTree.text = .ok text) ∧
    ∀ summands, Model.kernel m = .node .sum summands → 2 ≤ summands.length →
      ∃ placed, rank backend metric m modelScore = .ok (placed.map Prod.fst) ∧
        IsRanking backend metric m modelScore summands placed := by
  by_cases hkernel : ∃ summands, Model.kernel m = .node .sum summands ∧ 2 ≤ summands.length
  · obtain ⟨summands, hkernel', hlength⟩ := hkernel
    obtain ⟨placed, hok, -⟩ := exists_ranking h hfinite hkernel' hlength
    have hne (text : String) :
        rank backend metric m modelScore ≠ .error (.notDecomposable text) := by
      rw [hok]
      exact nofun
    refine ⟨⟨?_, fun hnot ↦ absurd ⟨summands, hkernel', hlength⟩ hnot⟩, ?_, ?_⟩
    · rintro ⟨text, htext⟩
      exact absurd htext (hne text)
    · exact fun text htext ↦ absurd htext (hne text)
    · exact fun summands hkernel hlength ↦ exists_ranking h hfinite hkernel hlength
  · obtain ⟨text, htext, hrank⟩ := rank_of_other hkernel
    refine ⟨⟨fun _ ↦ hkernel, fun _ ↦ ⟨text, hrank⟩⟩, ?_, ?_⟩
    · intro text' hrank'
      cases hrank.symm.trans hrank'
      exact htext
    · exact fun summands hsum hlength ↦ absurd ⟨summands, hsum, hlength⟩ hkernel

open GaussianProcess (smoothTrend)

/-- Exact regression can be ranked by all standard criteria, if every input has a target. -/
theorem returns_exactBackend {m : GaussianProcess} (h : m.HasTargets) (maxEvaluations : ℕ)
    (criterion : Criterion) :
    Returns (PatternSearch.exactBackend maxEvaluations) criterion.metric m := by
  have hreduced : ∀ k reduced, Reduces (PatternSearch.exactBackend maxEvaluations) m k reduced →
      reduced.HasTargets := by
    rintro k reduced ⟨built, hbuilt, hnoise⟩
    have hbuilt := Evaluator.hasTargets_of_build h hbuilt
    rcases hnoise with ⟨-, rfl⟩ | ⟨noise, -, hassign⟩
    · exact hbuilt
    · exact (GaussianProcess.alike_of_assign hassign).hasTargets hbuilt
  constructor
  case build => exact fun k ↦ Evaluator.build_ne_missingTarget _ _ k
  case assign => exact fun k built _ ↦ GaussianProcess.assign_ne_missingTarget built
  case score => exact fun k reduced hr ↦ Evaluator.score_ne_missingTarget (hreduced k reduced hr)
  case finite =>
    intro k reduced _ s hscore
    obtain ⟨answer, -, hscore⟩ := Outcome.bind_eq_ok_iff.1 hscore
    dsimp only at hscore
    split at hscore
    · next hfinite =>
      cases hscore
      exact hfinite
    · cases hscore

theorem rank_is_complete_and_ordered_smoothTrend :
    Returns (PatternSearch.exactBackend 200) Criterion.bayesian.metric smoothTrend ∧
      Float.isFinite 3.0 = true ∧
      ∃ placed, rank (PatternSearch.exactBackend 200) Criterion.bayesian.metric smoothTrend 3.0 =
          .ok (placed.map Prod.fst) ∧ placed.length = 2 ∧
        IsRanking (PatternSearch.exactBackend 200) Criterion.bayesian.metric smoothTrend 3.0
          smoothTrend.kernel.children placed := by
  have hreturns := returns_exactBackend (m := smoothTrend) (Nat.le_refl 2) 200 .bayesian
  have hfinite : Float.isFinite 3.0 = true := by decide
  obtain ⟨-, -, hsum⟩ := rank_is_complete_and_ordered hreturns hfinite
  obtain ⟨placed, hok, hranking⟩ := hsum smoothTrend.kernel.children rfl (Nat.le_refl 2)
  have hlength := hranking.places.length_eq
  rw [List.length_map, List.length_range] at hlength
  exact ⟨hreturns, hfinite, placed, hok, hlength, hranking⟩

end Ranking

end CovarianceSearch
