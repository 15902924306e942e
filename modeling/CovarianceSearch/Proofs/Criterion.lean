import CovarianceSearch.Criterion
import CovarianceSearch.Proofs.GaussianProcess.Parameters
import CovarianceSearch.Proofs.Kernel.Reassignment

namespace CovarianceSearch

namespace KernelTree

def factorCounts : KernelTree → List ℕ :=
  OpTree.fold (fun _ ↦ []) fun c parts ↦
    match c with
    | .product => parts.length :: parts.flatten
    | _ => parts.flatten

theorem factorCounts_sumNode (ts : List KernelTree) :
    factorCounts (.node .sum ts) = (ts.map factorCounts).flatten := by
  rw [factorCounts, OpTree.fold_node]

theorem factorCounts_productNode (ts : List KernelTree) :
    factorCounts (.node .product ts) = ts.length :: (ts.map factorCounts).flatten := by
  rw [factorCounts, OpTree.fold_node, List.length_map]

end KernelTree

namespace Kernel

variable {R : Type} {k : Kernel R}

theorem redundantVariances_sumNode (ks : List (Kernel R)) :
    redundantVariances (.node .sum ks) = (ks.map redundantVariances).sum := by
  rw [redundantVariances, OpTree.fold_node]
  rfl

theorem redundantVariances_productNode (ks : List (Kernel R)) :
    redundantVariances (.node .product ks) =
      ks.length - 1 + (ks.map redundantVariances).sum := by
  rw [redundantVariances, OpTree.fold_node, List.length_map]
  rfl

theorem isValid_toTree_node_iff {op : Operation} {ks : List (Kernel R)} :
    (toTree (.node op ks)).IsValid ↔ ks ≠ [] ∧ ∀ k ∈ ks, k.toTree.IsValid := by
  have hop : op.toCombinator = .sum ∨ op.toCombinator = .product := by cases op <;> decide
  rw [toTree_node, KernelTree.isValid_node_iff, List.forall_mem_map]
  simp [hop]

theorem redundantVariances_lt (h : k.toTree.IsValid) : k.redundantVariances < k.labels.length := by
  induction k using OpTree.induction with
  | leaf f => exact Nat.one_pos
  | node op ks ih =>
    obtain ⟨hne, hks⟩ := isValid_toTree_node_iff.1 h
    have hpos := List.length_pos_iff.2 hne
    -- Every operand leaves over one of its base kernels, so a product can spare one per factor.
    have hspare : (ks.map redundantVariances).sum + ks.length ≤ (OpTree.node op ks).labels.length :=
      calc (ks.map redundantVariances).sum + ks.length
          = (ks.map fun k ↦ redundantVariances k + 1).sum := by simp [List.sum_map_add]
        _ ≤ (ks.map fun k ↦ k.labels.length).sum :=
          List.sum_le_sum fun k hk ↦ ih k hk (hks k hk)
        _ = (OpTree.node op ks).labels.length := by rw [OpTree.labels_node, List.length_flatMap]
    cases op with
    | sum =>
      rw [redundantVariances_sumNode]
      omega
    | product =>
      rw [redundantVariances_productNode]
      omega

theorem redundantVariances_eq (h : k.toTree.IsValid) :
    (k.redundantVariances : ℤ) = (k.toTree.factorCounts.map fun n : ℕ ↦ (n : ℤ) - 1).sum := by
  induction k using OpTree.induction with
  | leaf f => rfl
  | node op ks ih =>
    obtain ⟨hne, hks⟩ := isValid_toTree_node_iff.1 h
    have hpos := List.length_pos_iff.2 hne
    have hsum : (((ks.map redundantVariances).sum : ℕ) : ℤ) = (((ks.map toTree).map
        KernelTree.factorCounts).flatten.map fun n : ℕ ↦ (n : ℤ) - 1).sum := by
      rw [List.map_flatten, List.sum_flatten, List.map_map, List.map_map, List.map_map,
        Nat.cast_list_sum, List.map_map]
      congr 1
      exact List.map_congr_left fun k hk ↦ ih k hk (hks k hk)
    cases op with
    | sum =>
      have hnode : toTree (.node .sum ks) = .node .sum (ks.map toTree) := toTree_node .sum ks
      rw [redundantVariances_sumNode, hsum, hnode, KernelTree.factorCounts_sumNode]
    | product =>
      have hnode : toTree (.node .product ks) = .node .product (ks.map toTree) :=
        toTree_node .product ks
      rw [redundantVariances_productNode, Nat.cast_add, hsum, Nat.cast_sub hpos, hnode,
        KernelTree.factorCounts_productNode, List.map_cons, List.sum_cons, List.length_map]
      rfl

theorem isRecorded_of_ofTree [Scalar R] {t : KernelTree} (h : Kernel.ofTree t = .ok k) :
    k.IsRecorded := by
  intro f hf
  rw [labels_of_ofTree h] at hf
  obtain ⟨b, -, rfl⟩ := List.mem_map.1 hf
  exact List.length_map _

theorem IsRecorded.parameterCount_eq (h : k.IsRecorded) : k.parameterCount =
    (k.toTree.labels.map fun b ↦ b.spec.parameters.length).sum := by
  rw [parameterCount_eq_sum, labels_toTree, List.map_map]
  congr 1
  exact List.map_congr_left h

theorem length_parameters_pos (b : BaseKernel) : 0 < b.spec.parameters.length := by
  cases b <;> simp [BaseKernel.spec]

theorem IsRecorded.length_labels_le (h : k.IsRecorded) : k.labels.length ≤ k.parameterCount := by
  rw [parameterCount_eq_sum, ← List.length_map (·.params.length)]
  apply List.length_le_sum_of_one_le
  rw [List.forall_mem_map]
  intro f hf
  rw [h f hf]
  exact length_parameters_pos f.kernel

end Kernel

namespace GaussianProcess

variable {m m₀ : GaussianProcess} {t : KernelTree} {k : Kernel Float} {xs ys : List Float}

/-- A model keeps the structure of the tree that it was built on, whatever parameters it is given
later. -/
theorem Alike.toTree_and_isRecorded (hm : m.Alike m₀) (hbuild : build xs ys k = .ok m₀)
    (hk : Kernel.ofTree t = .ok k) : m.kernel.toTree = t ∧ m.kernel.IsRecorded := by
  have hkernel : m₀.kernel = k := by rw [eq_of_build hbuild]
  constructor
  · rw [hm.toTree_eq, hkernel, Kernel.toTree_of_ofTree hk]
  · rw [Kernel.isRecorded_iff, hm.shapes_eq, hkernel]
    exact Kernel.isRecorded_iff.1 (Kernel.isRecorded_of_ofTree hk)

end GaussianProcess

namespace Criterion

variable {t : KernelTree}

/-- Whatever the values of its parameters, a model on the kernel of a valid tree has more of them
than the Duvenaud criterion leaves out. -/
theorem duvenaud_never_saturates (ht : t.IsValid) :
    ∃ k, Kernel.ofTree t = .ok k ∧
      ∀ xs ys (m₀ m : GaussianProcess), GaussianProcess.build xs ys k = .ok m₀ → m.Alike m₀ →
        m.kernel.redundantVariances ≤ t.labels.length - 1 ∧
        m.kernel.redundantVariances < Model.parameterCount m - 1 ∧
        m.kernel.parameterCount = (t.labels.map fun b ↦ b.spec.parameters.length).sum ∧
        (bayesianDuvenaud.penalised m : ℤ) =
          Model.parameterCount m - 1 - m.kernel.redundantVariances ∧
        (bayesianDuvenaud.penalised m : ℤ) =
          m.kernel.parameterCount - (t.factorCounts.map fun n : ℕ ↦ (n : ℤ) - 1).sum ∧
        1 ≤ bayesianDuvenaud.penalised m := by
  obtain ⟨k, hk⟩ := Kernel.exists_ofTree (R := Float) ht
  refine ⟨k, hk, fun xs ys m₀ m hbuild hm ↦ ?_⟩
  obtain ⟨htree, hrecorded⟩ := hm.toTree_and_isRecorded hbuild hk
  have hvalid : m.kernel.toTree.IsValid := htree ▸ ht
  have hleaves : m.kernel.labels.length = t.labels.length := by
    rw [← htree, Kernel.labels_toTree, List.length_map]
  have hredundant := Kernel.redundantVariances_lt hvalid
  have hlabels := hrecorded.length_labels_le
  have hcount := GaussianProcess.parameterCount_eq hrecorded
  have hsum := Kernel.redundantVariances_eq hvalid
  have hparameters := hrecorded.parameterCount_eq
  have hpenalised : bayesianDuvenaud.penalised m =
      Model.parameterCount m - 1 - m.kernel.redundantVariances := rfl
  rw [htree] at hsum hparameters
  rw [← hsum]
  refine ⟨?_, ?_, hparameters, ?_, ?_, ?_⟩ <;> omega

theorem duvenaud_never_saturates_rbfTimesPeriodic :
    KernelTree.IsValid (.node .product [.leaf .rbf, .leaf .periodic]) ∧
      ∃ k m₀, Kernel.ofTree (.node .product [.leaf .rbf, .leaf .periodic]) = .ok k ∧
        GaussianProcess.build [0, 1, 2, 3] [0.5, -0.2, 0.1, 0.3] k = .ok m₀ ∧
        bayesianDuvenaud.penalised (m₀.changed fun _ _ ↦ 0.5) = 4 := by
  have hvalid : KernelTree.IsValid (.node .product [.leaf .rbf, .leaf .periodic]) := by
    rw [KernelTree.IsValid]
    decide
  obtain ⟨k, hk, hmodels⟩ := duvenaud_never_saturates hvalid
  obtain ⟨m₀, hm₀⟩ : ∃ m₀, GaussianProcess.build [0, 1, 2, 3] [0.5, -0.2, 0.1, 0.3] k = .ok m₀ :=
    ⟨_, rfl⟩
  obtain ⟨-, -, hparameters, -, hpenalised, -⟩ := hmodels _ _ m₀ (m₀.changed fun _ _ ↦ 0.5) hm₀
    (m₀.withParameters_changed _)
  have hfive : (OpTree.labels (.node Combinator.product [.leaf .rbf, .leaf .periodic])
      |>.map fun b : BaseKernel ↦ b.spec.parameters.length).sum = 5 := by decide
  have hone : ((KernelTree.factorCounts (.node .product [.leaf .rbf, .leaf .periodic])).map
      fun n : ℕ ↦ (n : ℤ) - 1).sum = 1 := by decide
  exact ⟨hvalid, k, m₀, hk, hm₀, by omega⟩

end Criterion

end CovarianceSearch
