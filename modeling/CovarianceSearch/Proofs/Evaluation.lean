import CovarianceSearch.Evaluation
import CovarianceSearch.Proofs.KernelTree.Validity

namespace CovarianceSearch

theorem Combinator.exists_applied {c : Combinator} (hc : c = .sum ∨ c = .product) {arity : Nat}
    (harity : arity ≠ 0) : ∃ op, c.applied arity = .ok op := by
  rcases hc with rfl | rfl
  · exact ⟨.sum, by rw [applied]; exact Outcome.bind_eq_ok_iff.2 ⟨_, rfl, if_neg harity⟩⟩
  · exact ⟨.product, by rw [applied]; exact Outcome.bind_eq_ok_iff.2 ⟨_, rfl, if_neg harity⟩⟩

theorem Combinator.toCombinator_of_applied {c : Combinator} {arity : Nat} {op : Operation}
    (h : c.applied arity = .ok op) : op.toCombinator = c := by
  obtain ⟨op', hop, h⟩ := Outcome.bind_eq_ok_iff.1 h
  split at h
  · cases h
  · cases h
    cases c with
    | sum => cases hop; rfl
    | product => cases hop; rfl
    | changePoint => cases hop
    | changeWindow => cases hop

theorem Kernel.exists_ofTree {R : Type} [Scalar R] {t : KernelTree} (h : t.IsValid) :
    ∃ k : Kernel R, Kernel.ofTree t = .ok k := by
  induction t using OpTree.induction with
  | leaf k => exact ⟨_, rfl⟩
  | node c ts ih =>
    obtain ⟨hc, hne, hts⟩ := KernelTree.isValid_node_iff.1 h
    obtain ⟨op, hop⟩ : ∃ op, c.applied (ts.map (ofTree (R := R))).length = .ok op :=
      Combinator.exists_applied hc (by simpa using hne)
    have hparts : ∀ part ∈ ts.map (ofTree (R := R)), ∃ k, id part = .ok k := by
      intro part hpart
      obtain ⟨t, ht, rfl⟩ := List.mem_map.1 hpart
      exact ih t ht (hts t ht)
    obtain ⟨ks, hks⟩ := Outcome.exists_mapM_eq_ok hparts
    refine ⟨.node op ks, ?_⟩
    rw [ofTree, OpTree.fold_node]
    exact Outcome.bind_eq_ok_iff.2 ⟨op, hop, Outcome.bind_eq_ok_iff.2 ⟨ks, hks, rfl⟩⟩

/-- A tree has a kernel where it is valid, and the fault is the same where it is not. -/
theorem Kernel.map_ofTree {R : Type} [Scalar R] (t : KernelTree) :
    (ofTree (R := R) t).map (fun _ ↦ ()) = t.validate := by
  induction t using OpTree.induction with
  | leaf k => rfl
  | node c ts ih =>
    have hchecks : ts.map KernelTree.validate =
        (ts.map (ofTree (R := R))).map (Except.map fun _ ↦ ()) := by
      rw [List.map_map]
      exact List.map_congr_left fun t ht ↦ (ih t ht).symm
    rw [ofTree, OpTree.fold_node, ← ofTree, KernelTree.validate, OpTree.fold_node,
      ← KernelTree.validate, hchecks, Outcome.forM_id_map]
    simp only [List.length_map]
    cases c.applied ts.length with
    | error e => rfl
    | ok op => cases (ts.map (ofTree (R := R))).mapM id <;> rfl

theorem Kernel.ofTree_eq_error_iff {R : Type} [Scalar R] {t : KernelTree} {fault : NodeFault} :
    ofTree (R := R) t = .error fault ↔ t.validate = .error fault := by
  rw [← map_ofTree (R := R)]
  cases ofTree (R := R) t <;> simp [Except.map]
theorem Kernel.exists_ofTree_iff {R : Type} [Scalar R] {t : KernelTree} :
    (∃ k : Kernel R, ofTree t = .ok k) ↔ t.IsValid := by
  rw [KernelTree.IsValid, ← map_ofTree (R := R)]
  cases ofTree (R := R) t <;> simp [Except.map]

theorem Kernel.ofTree_induction {R : Type} [Scalar R] {motive : KernelTree → Kernel R → Prop}
    (leaf : ∀ b, motive (.leaf b) (.leaf (.standard b)))
    (node : ∀ op ts ks, List.Forall₂ motive ts ks →
      motive (.node (Operation.toCombinator op) ts) (.node op ks))
    {t : KernelTree} {k : Kernel R} (h : Kernel.ofTree t = .ok k) : motive t k := by
  induction t using OpTree.induction generalizing k with
  | leaf b =>
    cases h
    exact leaf b
  | node c ts ih =>
    rw [ofTree, OpTree.fold_node, ← ofTree] at h
    obtain ⟨op, hop, h⟩ := Outcome.bind_eq_ok_iff.1 h
    obtain ⟨ks, hks, h⟩ := Outcome.bind_eq_ok_iff.1 h
    cases h
    have hparts : List.Forall₂ (fun t k ↦ ofTree t = .ok k) ts ks :=
      List.forall₂_map_left_iff.1 (Outcome.mapM_eq_ok_iff.1 hks)
    rw [← Combinator.toCombinator_of_applied hop]
    refine node op ts ks (((List.forall₂_and_left ts ks).2 ⟨fun t ht ↦ ht, hparts⟩).imp ?_)
    rintro t k ⟨ht, hk⟩
    exact ih t ht hk

theorem map_eq_map_of_forall₂ {α β γ : Type} {f : α → γ} {g : β → γ} {as : List α} {bs : List β}
    (h : List.Forall₂ (fun a b ↦ f a = g b) as bs) : as.map f = bs.map g := by
  rw [← List.forall₂_eq_eq_eq, List.forall₂_map_left_iff, List.forall₂_map_right_iff]
  exact h

theorem Kernel.toTree_of_ofTree {R : Type} [Scalar R] {t : KernelTree} {k : Kernel R}
    (h : Kernel.ofTree t = .ok k) : k.toTree = t := by
  refine ofTree_induction (motive := fun t k ↦ k.toTree = t) (fun b ↦ rfl) (fun op ts ks ih ↦ ?_) h
  have htrees : ts.map id = ks.map toTree := map_eq_map_of_forall₂ (ih.imp fun _ _ ↦ Eq.symm)
  rw [toTree, OpTree.map_node, ← toTree, ← htrees, List.map_id]

/-- A score is finite and comes with parameters, or it is infinite and comes without. -/
def IsSettled (score : Float) (params : Option Assignment) : Prop :=
  score.isFinite = true ∧ params.isSome = true ∨ score = Entry.infinity ∧ params = none

namespace Evaluator

variable {M : Type} [Model M] {ev : Evaluator M} {xs ys : List Float}

theorem isFinite_of_fit {k : Kernel Float} {deviates : Nat → Float} {score : Float}
    {params : Assignment} (h : ev.fit xs ys k deviates = .ok (score, params)) :
    score.isFinite = true := by
  obtain ⟨m, -, h⟩ := Outcome.bind_eq_ok_iff.1 h
  obtain ⟨m, -, h⟩ := Outcome.bind_eq_ok_iff.1 h
  obtain ⟨m, -, h⟩ := Outcome.bind_eq_ok_iff.1 h
  obtain ⟨score', -, h⟩ := Outcome.bind_eq_ok_iff.1 h
  split at h
  · next hfinite =>
    cases h
    exact hfinite
  · cases h

theorem settle_fit {t : KernelTree} {k : Kernel Float} {deviates : Nat → Float} {v : Evaluation}
    (h : settle t (ev.fit xs ys k deviates) = .ok v) :
    v.tree = t ∧ IsSettled v.score v.params := by
  unfold settle at h
  split at h
  · next hfit =>
    cases h
    exact ⟨rfl, .inl ⟨isFinite_of_fit hfit, rfl⟩⟩
  · cases h
    exact ⟨rfl, .inr ⟨rfl, rfl⟩⟩
  · cases h

theorem exists_settle_fit {t : KernelTree} {k : Kernel Float} {deviates : Nat → Float}
    (h : ev.fit xs ys k deviates ≠ .error .missingTarget) :
    ∃ v, settle t (ev.fit xs ys k deviates) = .ok v := by
  unfold settle
  split
  · exact ⟨_, rfl⟩
  · exact ⟨_, rfl⟩
  · next hfit => exact absurd hfit h

theorem evaluate_eq_ok_iff {trees : List KernelTree} {deviates : Deviates}
    {evaluations : List Evaluation} : ev.evaluate xs ys trees deviates = .ok evaluations ↔
      ∃ kernels, List.Forall₂ (fun t k ↦ Kernel.ofTree t = .ok k) trees kernels ∧
        List.Forall₂ (fun p v ↦ settle p.1.1 (ev.fit xs ys p.1.2 (deviates p.2)) = .ok v)
          (trees.zip kernels).zipIdx evaluations := by
  simp only [evaluate, Outcome.bind_eq_ok_iff, Outcome.mapM_eq_ok_iff, Outcome.mapError_eq_ok_iff]

/-- There is one outcome for every tree, in order, and all of them are settled. -/
theorem evaluations_settled {trees : List KernelTree} {deviates : Deviates}
    {evaluations : List Evaluation} (h : ev.evaluate xs ys trees deviates = .ok evaluations) :
    List.Forall₂ (fun t v ↦ v.tree = t ∧ IsSettled v.score v.params) trees evaluations := by
  obtain ⟨kernels, hkernels, h⟩ := evaluate_eq_ok_iff.1 h
  have htrees : (trees.zip kernels).zipIdx.map (fun p ↦ p.1.1) = trees := by
    have hfst : (trees.zip kernels).zipIdx.map (fun p ↦ p.1.1) =
        (trees.zip kernels).map Prod.fst := by
      rw [← List.zipIdx_map_fst 0 (trees.zip kernels), List.map_map, List.zipIdx_map_fst]
      rfl
    rw [hfst, List.map_fst_zip (Nat.le_of_eq hkernels.length_eq)]
  rw [← htrees]
  exact List.forall₂_map_left_iff.2 (h.imp fun p v hv ↦ settle_fit hv)

theorem exists_evaluate_of_fits {trees : List KernelTree} {deviates : Deviates}
    (htrees : ∀ t ∈ trees, t.IsValid)
    (hfit : ∀ t ∈ trees, ∀ k deviates, Kernel.ofTree t = .ok k →
      ev.fit xs ys k deviates ≠ .error .missingTarget) :
    ∃ evaluations, ev.evaluate xs ys trees deviates = .ok evaluations := by
  obtain ⟨kernels, hkernels⟩ : ∃ kernels, trees.mapM (Kernel.ofTree (R := Float)) = .ok kernels :=
    Outcome.exists_mapM_eq_ok fun t ht ↦ Kernel.exists_ofTree (htrees t ht)
  have hzip := Outcome.mapM_eq_ok_iff.1 hkernels
  have hpair : ∀ p ∈ (trees.zip kernels).zipIdx,
      p.1.1 ∈ trees ∧ Kernel.ofTree p.1.1 = .ok p.1.2 := by
    intro p hp
    have hmem := List.fst_mem_of_mem_zipIdx hp
    exact ⟨(List.of_mem_zip hmem).1, (List.forall₂_iff_zip.1 hzip).2 hmem⟩
  obtain ⟨evaluations, hevaluations⟩ : ∃ evaluations, (trees.zip kernels).zipIdx.mapM
      (fun p ↦ settle p.1.1 (ev.fit xs ys p.1.2 (deviates p.2))) = .ok evaluations := by
    refine Outcome.exists_mapM_eq_ok fun p hp ↦ exists_settle_fit ?_
    exact hfit p.1.1 (hpair p hp).1 _ _ (hpair p hp).2
  exact ⟨evaluations, evaluate_eq_ok_iff.2 ⟨kernels, hzip, Outcome.mapM_eq_ok_iff.1 hevaluations⟩⟩

theorem exists_evaluate {trees : List KernelTree} {deviates : Deviates}
    (htrees : ∀ t ∈ trees, t.IsValid)
    (hfit : ∀ k deviates, ev.fit xs ys k deviates ≠ .error .missingTarget) :
    ∃ evaluations, ev.evaluate xs ys trees deviates = .ok evaluations :=
  exists_evaluate_of_fits htrees fun _ _ k deviates _ ↦ hfit k deviates

def Scores (ev : Evaluator M) (xs ys : List Float) (t : KernelTree) (score : Float) : Prop :=
  ∀ k deviates, Kernel.ofTree t = .ok k →
    ∃ params, ev.fit xs ys k deviates = .ok (score, params)

theorem score_of_settle {t : KernelTree} {fitted : Except Fault (Float × Assignment)}
    {v : Evaluation} {score : Float} {params : Assignment} (hfit : fitted = .ok (score, params))
    (h : settle t fitted = .ok v) : v.score = score := by
  rw [hfit] at h
  cases h
  rfl

theorem map_score_evaluate {trees : List KernelTree} {scores : List Float} {deviates : Deviates}
    {evaluations : List Evaluation} (hscores : List.Forall₂ (ev.Scores xs ys) trees scores)
    (h : ev.evaluate xs ys trees deviates = .ok evaluations) :
    evaluations.map (·.score) = scores := by
  obtain ⟨kernels, hkernels, hsettled⟩ := evaluate_eq_ok_iff.1 h
  clear h
  -- The deviates go by position, so the induction is over all positions to start from.
  generalize 0 = i at hsettled
  induction hscores generalizing kernels evaluations i with
  | nil =>
    cases hkernels
    cases hsettled
    rfl
  | cons hscore _ ih =>
    cases hkernels with
    | cons hkernel hkernels =>
      cases hsettled with
      | cons hv hsettled =>
        obtain ⟨params, hfit⟩ := hscore _ (deviates i) hkernel
        rw [List.map_cons, score_of_settle hfit hv, ih _ hkernels _ hsettled]

end Evaluator

end CovarianceSearch
