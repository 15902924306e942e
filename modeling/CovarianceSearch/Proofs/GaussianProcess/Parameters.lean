import CovarianceSearch.Proofs.GaussianProcess

namespace CovarianceSearch.GaussianProcess

variable {m : GaussianProcess}

theorem noisePath_not_mem_parameters (k : Kernel Float) :
    noisePath ∉ k.parameters.map Prod.fst := by
  intro h
  obtain ⟨rest, hrest⟩ := Kernel.exists_toList_eq_append h
  simp [noisePath] at hrest

/-- The parameters of the kernel do not overwrite one another, nor does the noise one of them. -/
theorem perm_parameters (h : m.kernel.IsRecorded) :
    m.parameters.entries.Perm ((noisePath, m.noise) :: m.kernel.parameters) := by
  have hkernel := Assignment.perm_ofList (h.nodup_names "kernel")
  have hnoise : noisePath ∉ (Assignment.ofList m.kernel.parameters).names := by
    rw [Assignment.mem_names_ofList]
    exact noisePath_not_mem_parameters m.kernel
  exact (Assignment.perm_insert hnoise).trans (hkernel.cons _)

theorem parameterCount_eq (h : m.kernel.IsRecorded) :
    Model.parameterCount m = m.kernel.parameterCount + 1 := by
  calc Model.parameterCount m = ((noisePath, m.noise) :: m.kernel.parameters).length :=
        (perm_parameters h).length_eq
    _ = m.kernel.parameterCount + 1 := by
      rw [List.length_cons, Kernel.parameters, h.length_parametersBelow]

/-- The parameters of a kernel go by different paths, none of them that of the noise, and they are
all of its values. A visit comes to them in the order of their list, and a model on the kernel has
one entry for each of them and one for the noise. -/
theorem parameters_keep_apart {k : Kernel Float} (hk : k.IsRecorded) :
    (k.parameters.map Prod.fst).Nodup ∧ noisePath ∉ k.parameters.map Prod.fst ∧
    k.parameters.map Prod.snd = k.labels.flatMap (·.params) ∧
    (∀ (σ : Type) (visit : String → Float → StateM σ Float) (s : σ), ∃ k' s',
      (k.visitParameters visit).run s = (k', s') ∧
      (k.parameters.mapM fun q ↦ (q.1, ·) <$> visit q.1 q.2).run s = (k'.parameters, s') ∧
      k'.toTree = k.toTree ∧ k'.IsRecorded) ∧
    ∀ m : GaussianProcess, m.kernel = k →
      m.parameters.size = k.parameterCount + 1 ∧
      m.parameters.entries.Perm ((noisePath, m.noise) :: k.parameters) := by
  refine ⟨hk.nodup_names "kernel", noisePath_not_mem_parameters k,
    hk.values_parametersBelow "kernel", fun σ ↦ hk.exists_run_visitParameters, ?_⟩
  rintro m rfl
  exact ⟨parameterCount_eq hk, perm_parameters hk⟩

def manyTrends : Kernel Float :=
  .node .sum (List.replicate 10 (.leaf (.standard .linear)) ++
    [.node .product [.leaf (.standard .rbf), .leaf (.standard .periodic)]])

def doubleAndNote (path : String) (v : Float) : StateM (List String) Float := do
  modify (· ++ [path])
  return v + v

theorem parameters_keep_apart_manyTrends :
    manyTrends.IsRecorded ∧
      ["kernel/1/linear/variance", "kernel/10/0/rbf/variance", "kernel/10/1/periodic/variance"] ⊆
        manyTrends.parameters.map Prod.fst ∧
      (manyTrends.parameters.map Prod.fst).Nodup ∧
      (∃ k', (manyTrends.visitParameters doubleAndNote).run [] =
        (k', manyTrends.parameters.map Prod.fst)) ∧
      (parameters ⟨[0.0, 1.0], [0.5, 0.25], manyTrends, 1.0⟩).size = 16 := by
  have hrecorded : manyTrends.IsRecorded := by
    have hlabels : manyTrends.labels =
        List.replicate 10 (.standard .linear) ++ [.standard .rbf, .standard .periodic] := rfl
    intro f hf
    rw [hlabels] at hf
    have hf : f = .standard .linear ∨ f = .standard .rbf ∨ f = .standard .periodic := by
      simpa using hf
    rcases hf with rfl | rfl | rfl <;> rfl
  obtain ⟨hnodup, -, -, hvisit, hmodel⟩ := parameters_keep_apart hrecorded
  refine ⟨hrecorded, by decide, hnodup, ?_, (hmodel _ rfl).1⟩
  obtain ⟨k', notes, hrun, hlist, -⟩ := hvisit _ doubleAndNote []
  have hnotes : manyTrends.parameters.map Prod.fst = notes := congrArg Prod.snd hlist
  exact ⟨k', hnotes ▸ hrun⟩

end CovarianceSearch.GaussianProcess
