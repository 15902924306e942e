import CovarianceSearch.GaussianProcess
import CovarianceSearch.Proofs.Assignment
import CovarianceSearch.Proofs.FloatStorage
import CovarianceSearch.Proofs.Kernel.Parameters
import CovarianceSearch.Proofs.Outcome

namespace CovarianceSearch

namespace Likelihood

open Scalar

variable {R : Type} [Scalar R] {n : Nat}

theorem exists_solveRow? {ys : List R} (h : n ≤ ys.length) (l : SquareMatrix R n) (z : Vector R n)
    (i : Fin n) : ∃ z', solveRow? l ys z i = some z' := by
  have hi : i.val < ys.length := Nat.lt_of_lt_of_le i.isLt h
  rw [solveRow?, List.getElem?_eq_getElem hi]
  exact ⟨_, rfl⟩

theorem exists_solveLower? {ys : List R} (h : n ≤ ys.length) (l : SquareMatrix R n) :
    ∃ z, solveLower? l ys = some z := by
  rw [solveLower?]
  generalize Vector.replicate n (zero : R) = z
  induction List.finRange n generalizing z with
  | nil => exact ⟨z, rfl⟩
  | cons i rows ih =>
    obtain ⟨z', hz'⟩ := exists_solveRow? h l z i
    rw [List.foldlM_cons, hz']
    exact ih z'

theorem lossOf_ne_missingTarget {ys : List R} (h : n ≤ ys.length) (a : SquareMatrix R n) :
    lossOf a ys ≠ .error .missingTarget := by
  unfold lossOf
  split
  · simp
  · next l _ =>
    obtain ⟨z, hz⟩ := exists_solveLower? h l
    rw [hz]
    dsimp only
    split <;> simp

theorem cholesky?_of_not_isFinite {a : SquareMatrix R (n + 1)}
    (h : isFinite (a.entry 0 0) = false) : cholesky? a = none := by
  have hentry : factorAt? 0 a 0 = none := by
    have hbefore : SquareMatrix.before (0 : Fin (n + 1)) = [] := rfl
    simp [factorAt?, hbefore, subtractProducts, h]
  have hrow : factorRow? a 0 = none := by
    rw [factorRow?, List.finRange_succ]
    change ((List.take 1 (0 :: _)).foldlM (factorAt? 0) a >>= _) = none
    rw [List.take_succ_cons, List.foldlM_cons, hentry]
    rfl
  rw [cholesky?, List.finRange_succ, List.foldlM_cons, hrow]
  rfl

theorem isFinite_of_lossOf {a : SquareMatrix R n} {ys : List R} {loss : R}
    (h : lossOf a ys = .ok loss) : isFinite loss = true := by
  unfold lossOf at h
  split at h
  · cases h
  · split at h
    · cases h
    · dsimp only at h
      split at h
      · next hfinite =>
        cases h
        exact hfinite
      · cases h

end Likelihood

namespace GaussianProcess

def changed (m : GaussianProcess) (change : String → Float → Float) : GaussianProcess :=
  { m with kernel := m.kernel.mapParameters change, noise := change noisePath m.noise }

def withParameters (m : GaussianProcess) (f : String → Float) : GaussianProcess :=
  m.changed fun path _ ↦ f path

/-- Two models that differ in the values of their parameters at most. -/
def Alike (m m' : GaussianProcess) : Prop := ∀ f, m.withParameters f = m'.withParameters f

def HasTargets (m : GaussianProcess) : Prop := m.inputs.length ≤ m.targets.length

/-- Every parameter has a value that goes by its path and that it would get by an assignment too. -/
def IsPlaced (m : GaussianProcess) : Prop :=
  ∃ f, m.withParameters f = m ∧ ∀ path, floored (f path) = f path

variable {m m' m'' : GaussianProcess} {f : String → Float} {change : String → Float → Float}
  {values : Assignment} {name : String}

theorem eq_of_build {xs ys : List Float} {k : Kernel Float} (h : build xs ys k = .ok m) :
    m = ⟨xs, ys, k, 1.0⟩ := by
  unfold build at h
  split at h
  · cases h
  · cases h
    rfl

theorem floored_floored (v : Float) : floored (floored v) = floored v := by
  by_cases h : leastParameter < v
  · have hv : floored v = v := if_pos h
    rw [hv, hv]
  · have hv : floored v = leastParameter := if_neg h
    rw [hv]
    exact ite_self _

theorem changed_changed (m : GaussianProcess) (change change' : String → Float → Float) :
    (m.changed change').changed change = m.changed fun p v ↦ change p (change' p v) := by
  have hkernel := Kernel.mapParametersBelow_mapParametersBelow change change' m.kernel "kernel"
  rw [changed, changed, changed, Kernel.mapParameters, Kernel.mapParameters, hkernel]
  rfl

theorem withParameters_changed (m : GaussianProcess) (change : String → Float → Float)
    (f : String → Float) : (m.changed change).withParameters f = m.withParameters f :=
  changed_changed m _ change

theorem parameters_changed (m : GaussianProcess) (change : String → Float → Float) :
    (m.changed change).kernel.parameters =
      m.kernel.parameters.map fun q ↦ (q.1, change q.1 q.2) :=
  Kernel.parametersBelow_mapParametersBelow change m.kernel "kernel"

theorem mem_names_parameters :
    name ∈ m.parameters.names ↔ name = noisePath ∨ name ∈ m.kernel.parameters.map Prod.fst := by
  rw [parameters, Assignment.mem_names_insert, Assignment.mem_names_ofList]

theorem mem_names_changed :
    name ∈ (m.changed change).parameters.names ↔ name ∈ m.parameters.names := by
  rw [mem_names_parameters, mem_names_parameters, parameters_changed, List.map_map]
  rfl

theorem changed_congr {change' : String → Float → Float}
    (h : ∀ path ∈ m.parameters.names, ∀ v, change path v = change' path v) :
    m.changed change = m.changed change' := by
  have hnoise := h noisePath (mem_names_parameters.2 (.inl rfl)) m.noise
  have hkernel : m.kernel.mapParameters change = m.kernel.mapParameters change' := by
    apply Kernel.mapParametersBelow_congr
    intro q hq
    exact h q.1 (mem_names_parameters.2 (.inr (List.mem_map_of_mem hq))) q.2
  rw [changed, changed, hnoise, hkernel]

theorem assign_eq_ok_iff : m.assign values = .ok m' ↔
    (∀ name ∈ values.names, name ∈ m.parameters.names) ∧
      m' = m.changed fun path v ↦ (values.get? path).elim v floored := by
  unfold assign
  split
  · next name hname =>
    have hunknown := List.find?_some hname
    have hmem := List.mem_of_find?_eq_some hname
    constructor
    · intro h
      cases h
    · rintro ⟨hknown, -⟩
      exact absurd (hknown name hmem) (by simpa using hunknown)
  · next hnone =>
    have hknown : ∀ name ∈ values.names, name ∈ m.parameters.names := by
      intro name hname
      simpa using List.find?_eq_none.1 hnone name hname
    constructor
    · intro h
      cases h
      exact ⟨hknown, rfl⟩
    · rintro ⟨-, rfl⟩
      rfl

theorem Alike.refl (m : GaussianProcess) : m.Alike m := fun _ ↦ rfl

theorem Alike.symm (h : m.Alike m') : m'.Alike m := fun f ↦ (h f).symm

theorem Alike.trans (h : m.Alike m') (h' : m'.Alike m'') : m.Alike m'' :=
  fun f ↦ (h f).trans (h' f)

theorem alike_of_assign (h : m.assign values = .ok m') : m'.Alike m := by
  obtain ⟨-, rfl⟩ := assign_eq_ok_iff.1 h
  exact withParameters_changed m _

theorem Alike.mem_names_iff (h : m.Alike m') :
    name ∈ m.parameters.names ↔ name ∈ m'.parameters.names := by
  have hnames := congrArg (fun m : GaussianProcess ↦ name ∈ m.parameters.names) (h fun _ ↦ 0)
  rw [← mem_names_changed (m := m), ← mem_names_changed (m := m')]
  exact iff_of_eq hnames

theorem Alike.hasTargets (h : m.Alike m') (hm' : m'.HasTargets) : m.HasTargets := by
  have hdata := congrArg HasTargets (h fun _ ↦ 0)
  exact (iff_of_eq hdata).2 hm'

theorem Alike.toTree_eq (h : m.Alike m') : m.kernel.toTree = m'.kernel.toTree := by
  have htrees := congrArg (fun m : GaussianProcess ↦ m.kernel.toTree) (h fun _ ↦ 0)
  calc m.kernel.toTree = (m.withParameters fun _ ↦ 0).kernel.toTree :=
        (Kernel.toTree_mapParametersBelow _ m.kernel _).symm
    _ = (m'.withParameters fun _ ↦ 0).kernel.toTree := htrees
    _ = m'.kernel.toTree := Kernel.toTree_mapParametersBelow _ m'.kernel _

theorem Alike.shapes_eq (h : m.Alike m') : m.kernel.shapes = m'.kernel.shapes := by
  have hshapes := congrArg (fun m : GaussianProcess ↦ m.kernel.shapes) (h fun _ ↦ 0)
  calc m.kernel.shapes = (m.withParameters fun _ ↦ 0).kernel.shapes :=
        (Kernel.shapes_mapParametersBelow _ m.kernel _).symm
    _ = (m'.withParameters fun _ ↦ 0).kernel.shapes := hshapes
    _ = m'.kernel.shapes := Kernel.shapes_mapParametersBelow _ m'.kernel _

theorem changed_eq_withParameters
    (hall : ∀ name ∈ m.parameters.names, name ∈ values.names) :
    (m.changed fun path v ↦ (values.get? path).elim v floored) =
      m.withParameters fun path ↦ floored ((values.get? path).getD 0) := by
  apply changed_congr
  intro path hpath v
  have hsome := Assignment.isSome_get?_iff.2 (hall path hpath)
  obtain ⟨w, hw⟩ := Option.isSome_iff_exists.1 hsome
  dsimp only
  rw [hw]
  rfl

theorem assign_eq_withParameters
    (h : ∀ name, name ∈ values.names ↔ name ∈ m.parameters.names) :
    m.assign values = .ok (m.withParameters fun path ↦ floored ((values.get? path).getD 0)) := by
  rw [← changed_eq_withParameters fun name ↦ (h name).2]
  exact assign_eq_ok_iff.2 ⟨fun name ↦ (h name).1, rfl⟩

theorem isPlaced_of_assign (h : m.assign values = .ok m')
    (hall : ∀ name ∈ m.parameters.names, name ∈ values.names) : m'.IsPlaced := by
  obtain ⟨-, rfl⟩ := assign_eq_ok_iff.1 h
  rw [changed_eq_withParameters hall]
  exact ⟨_, withParameters_changed m _ _, fun _ ↦ floored_floored _⟩

theorem get?_parameters (hm : m.withParameters f = m) (hname : name ∈ m.parameters.names) :
    m.parameters.get? name = some (f name) := by
  have hnoise : m.noise = f noisePath := by
    rw [← hm]
    rfl
  have hkernel : ∀ q ∈ m.kernel.parameters, q.2 = f q.1 := by
    rw [← hm, withParameters, parameters_changed]
    exact List.forall_mem_map.2 fun _ _ ↦ rfl
  rw [parameters, Assignment.get?_insert]
  by_cases h : name = noisePath
  · rw [if_pos h, hnoise, h]
  · rw [if_neg h]
    have hmem := (mem_names_parameters.1 hname).resolve_left h
    exact Assignment.get?_ofList hkernel hmem

/-- The parameters of a model turn every model like it into that model. -/
theorem assign_parameters (h : m.Alike m') (hm' : m'.IsPlaced) :
    m.assign m'.parameters = .ok m' := by
  obtain ⟨f, hf, hfloored⟩ := hm'
  apply assign_eq_ok_iff.2
  refine ⟨fun name hname ↦ h.mem_names_iff.2 hname, ?_⟩
  calc m' = m'.withParameters f := hf.symm
    _ = m.withParameters f := (h f).symm
    _ = _ := by
      apply changed_congr
      intro path hpath v
      rw [get?_parameters hf (h.mem_names_iff.1 hpath)]
      exact (hfloored path).symm

theorem assign_ne_missingTarget (m : GaussianProcess) (values : Assignment) :
    m.assign values ≠ .error .missingTarget := by
  unfold assign
  split <;> simp

theorem negativeLogLikelihood_ne_missingTarget (h : m.HasTargets) :
    m.negativeLogLikelihood ≠ .error .missingTarget := by
  unfold negativeLogLikelihood Likelihood.negativeLogLikelihood
  split
  · simp
  · exact Likelihood.lossOf_ne_missingTarget h _

theorem isFinite_of_negativeLogLikelihood {loss : Float} (h : m.negativeLogLikelihood = .ok loss) :
    loss.isFinite = true := by
  unfold negativeLogLikelihood Likelihood.negativeLogLikelihood at h
  split at h
  · cases h
  · exact Likelihood.isFinite_of_lossOf h

theorem finiteLoss_logLikelihood (m : GaussianProcess) :
    Model.finiteLoss (Model.logLikelihood m) = m.negativeLogLikelihood := by
  change Model.finiteLoss ((- ·) <$> m.negativeLogLikelihood) = _
  cases h : m.negativeLogLikelihood with
  | error e => rfl
  | ok loss =>
    have hfinite := isFinite_of_negativeLogLikelihood h
    change (if (-(-loss)).isFinite then Except.ok (-(-loss)) else _) = _
    rw [FloatRounding.neg_neg_of_isFinite hfinite, if_pos hfinite]

theorem logLikelihood_ne_missingTarget (h : m.HasTargets) :
    Model.logLikelihood m ≠ .error .missingTarget := by
  change (- ·) <$> m.negativeLogLikelihood ≠ _
  rw [map_eq_pure_bind]
  apply Outcome.bind_ne_error (negativeLogLikelihood_ne_missingTarget h)
  intro loss _ hanswer
  cases hanswer

theorem finiteLoss_ne_missingTarget (h : m.HasTargets) :
    Model.finiteLoss (Model.logLikelihood m) ≠ .error .missingTarget := by
  rw [finiteLoss_logLikelihood]
  exact negativeLogLikelihood_ne_missingTarget h

end GaussianProcess

end CovarianceSearch
