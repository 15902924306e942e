import CovarianceSearch.Kernel
import CovarianceSearch.Proofs.Evaluation

namespace CovarianceSearch

namespace OpTree

variable {ω α : Type}

def nodes : OpTree ω α → List (ω × ℕ) :=
  fold (fun _ ↦ []) fun op parts ↦ (op, parts.length) :: parts.flatten

theorem nodes_node (op : ω) (ts : List (OpTree ω α)) :
    (node op ts).nodes = (op, ts.length) :: ts.flatMap nodes := by
  rw [nodes, fold_node, List.length_map]
  rfl

theorem nodes_map {ω' α' : Type} (g : ω → ω') (f : α → α') (t : OpTree ω α) :
    (t.map g f).nodes = t.nodes.map fun n ↦ (g n.1, n.2) := by
  induction t using OpTree.induction with
  | leaf a => rfl
  | node op ts ih =>
    rw [map_node, nodes_node, nodes_node, List.flatMap_map, List.map_cons, List.map_flatMap,
      List.length_map]
    exact congrArg _ (List.flatMap_congr ih)

end OpTree

def Combinator.fault? (c : Combinator) (arity : ℕ) : Option NodeFault :=
  match c, arity with
  | .sum, 0 => some (.noOperands .sum)
  | .product, 0 => some (.noOperands .product)
  | .sum, _ + 1 | .product, _ + 1 => none
  | .changePoint, _ | .changeWindow, _ => some (.unregistered c)

namespace Combinator

variable {c : Combinator} {arity : ℕ}

theorem fault?_eq_none_iff : c.fault? arity = none ↔ (c = .sum ∨ c = .product) ∧ arity ≠ 0 := by
  cases c <;> cases arity <;> simp [fault?]

theorem applied_of_fault? {fault : NodeFault} (h : c.fault? arity = some fault) :
    c.applied arity = .error fault := by
  cases c <;> cases arity <;> cases h <;> rfl

end Combinator

namespace KernelTree

def firstFault? (t : KernelTree) : Option NodeFault := t.nodes.findSome? fun n ↦ n.1.fault? n.2

theorem firstFault?_node (c : Combinator) (ts : List KernelTree) :
    firstFault? (.node c ts) = (c.fault? ts.length).or (ts.findSome? firstFault?) := by
  have hoperands : (ts.flatMap OpTree.nodes).findSome? (fun n ↦ n.1.fault? n.2) =
      ts.findSome? firstFault? := by
    rw [← List.head?_filterMap, List.filterMap_flatMap, List.head?_flatMap]
    simp only [List.head?_filterMap]
    rfl
  rw [firstFault?, OpTree.nodes_node, List.findSome?_cons, hoperands]
  dsimp only
  cases c.fault? ts.length <;> rfl

theorem forM_id_of_findSome? {ts : List KernelTree}
    (h : ∀ t ∈ ts, t.validate = t.firstFault?.elim (.ok ()) .error) :
    (ts.map validate).forM id = (ts.findSome? firstFault?).elim (.ok ()) .error := by
  induction ts with
  | nil => rfl
  | cons t ts ih =>
    obtain ⟨ht, hts⟩ := List.forall_mem_cons.1 h
    rw [List.map_cons, ht, List.findSome?_cons]
    cases t.firstFault? with
    | none => exact ih hts
    | some fault => rfl

theorem validate_eq (t : KernelTree) : t.validate = t.firstFault?.elim (.ok ()) .error := by
  induction t using OpTree.induction with
  | leaf k => rfl
  | node c ts ih =>
    rw [validate, OpTree.fold_node, ← validate, firstFault?_node, List.length_map,
      forM_id_of_findSome? ih]
    cases hfault : c.fault? ts.length with
    | some fault =>
      rw [Combinator.applied_of_fault? hfault]
      rfl
    | none =>
      obtain ⟨hc, hne⟩ := Combinator.fault?_eq_none_iff.1 hfault
      obtain ⟨op, hop⟩ := Combinator.exists_applied hc hne
      rw [hop]
      rfl

theorem validate_eq_error_iff {t : KernelTree} {fault : NodeFault} :
    t.validate = .error fault ↔ t.firstFault? = some fault := by
  rw [validate_eq]
  cases t.firstFault? <;> simp

theorem isValid_iff_nodes {t : KernelTree} :
    t.IsValid ↔ ∀ n ∈ t.nodes, (n.1 = .sum ∨ n.1 = .product) ∧ n.2 ≠ 0 := by
  have hnone : t.IsValid ↔ t.firstFault? = none := by
    rw [IsValid, validate_eq]
    cases t.firstFault? <;> simp
  rw [hnone, firstFault?, List.findSome?_eq_none_iff]
  exact forall₂_congr fun n _ ↦ Combinator.fault?_eq_none_iff

end KernelTree

namespace Kernel

variable {R : Type} [Scalar R]

def reset (k : Kernel R) : Kernel R := k.map id fun f ↦ .standard f.kernel

theorem instantiate_node {op : Operation} {ts : List KernelTree} {ks : List (Kernel R)}
    (h : List.Forall₂ (fun t k ↦ instantiate t = .ok k) ts ks) :
    instantiate (.node op.toCombinator ts) = .ok (.node op ks) := by
  have hop : op.toCombinator.operation = .ok op := by cases op <;> rfl
  have hparts : ts.mapM (instantiate (R := R)) = .ok ks := Outcome.mapM_eq_ok_iff.2 h
  rw [instantiate, OpTree.fold_node, ← instantiate, List.mapM_map]
  change ts.mapM (instantiate (R := R)) >>= _ = _
  rw [hparts, hop]
  rfl

theorem instantiate_toTree (k : Kernel R) : instantiate k.toTree = .ok k.reset := by
  induction k using OpTree.induction with
  | leaf f => rfl
  | node op ks ih =>
    rw [toTree, OpTree.map_node, ← toTree, reset, OpTree.map_node]
    apply instantiate_node
    rw [List.forall₂_map_left_iff, List.forall₂_map_right_iff, List.forall₂_same]
    exact ih

theorem instantiate_of_ofTree {t : KernelTree} {k : Kernel R} (h : ofTree t = .ok k) :
    instantiate t = .ok k :=
  ofTree_induction (motive := fun t k ↦ instantiate t = .ok k) (fun _ ↦ rfl)
    (fun _ _ _ hparts ↦ instantiate_node hparts) h

/-- To check a tree before anything is built comes to the same as to check every node when it is
built. -/
theorem ofCheckedTree_eq (t : KernelTree) : ofCheckedTree (R := R) t = ofTree t := by
  rw [ofCheckedTree, ← map_ofTree (R := R)]
  cases hk : ofTree (R := R) t with
  | error fault => rfl
  | ok k => exact instantiate_of_ofTree hk

omit [Scalar R] in
theorem isValid_toTree_iff {k : Kernel R} : k.toTree.IsValid ↔ ∀ n ∈ k.nodes, n.2 ≠ 0 := by
  rw [KernelTree.isValid_iff_nodes, toTree, OpTree.nodes_map, List.forall_mem_map]
  refine forall₂_congr fun n _ ↦ and_iff_right ?_
  cases n.1 with
  | sum => exact .inl rfl
  | product => exact .inr rfl

theorem ofTree_toTree {k : Kernel R} (h : ∀ n ∈ k.nodes, n.2 ≠ 0) :
    ofTree k.toTree = .ok k.reset := by
  have hvalid : k.toTree.validate = .ok () := isValid_toTree_iff.2 h
  rw [← ofCheckedTree_eq, ofCheckedTree, hvalid]
  exact instantiate_toTree k

/-- Kernels are built of the trees of sums and products that are not empty, and from any other tree
comes the fault of its first bad node. What is built has the structure of the tree, and to build
anew what a kernel without empty nodes has the structure of takes back all that has been done to its
parameters. -/
theorem ofTree_inverts_toTree (t : KernelTree) (k : Kernel R) :
    ofCheckedTree (R := R) t = ofTree t ∧
      ((∃ k : Kernel R, ofTree t = .ok k) ↔
        ∀ n ∈ t.nodes, (n.1 = .sum ∨ n.1 = .product) ∧ n.2 ≠ 0) ∧
      (∀ fault, ofTree (R := R) t = .error fault ↔
        t.nodes.findSome? (fun n ↦ n.1.fault? n.2) = some fault) ∧
      (ofTree t = .ok k → k.toTree = t) ∧
      ((∀ n ∈ k.nodes, n.2 ≠ 0) → ofTree k.toTree = .ok k.reset) := by
  refine ⟨ofCheckedTree_eq t, ?_, fun fault ↦ ?_, toTree_of_ofTree, ofTree_toTree⟩
  · rw [exists_ofTree_iff (R := R), KernelTree.isValid_iff_nodes]
  · rw [ofTree_eq_error_iff (R := R), KernelTree.validate_eq_error_iff, KernelTree.firstFault?]

def adjusted : Kernel Float :=
  .node .sum [.leaf ⟨.polynomial 3, [2.5, 0.5]⟩, .node .product [.leaf ⟨.rbf, [4.0]⟩]]

def faulty : KernelTree :=
  .node .sum [.leaf .white, .node .changePoint [.node .sum []], .node .product []]

theorem ofTree_inverts_toTree_adjusted :
    (∀ n ∈ adjusted.nodes, n.2 ≠ 0) ∧ ofTree adjusted.toTree = .ok adjusted.reset ∧
      adjusted.reset.toTree = adjusted.toTree ∧
      ofTree (R := Float) faulty = .error (.unregistered .changePoint) := by
  have hnonempty : ∀ n ∈ adjusted.nodes, n.2 ≠ 0 := by decide
  obtain ⟨-, -, -, -, hreset⟩ := ofTree_inverts_toTree adjusted.toTree adjusted
  obtain ⟨-, -, -, htree, -⟩ := ofTree_inverts_toTree adjusted.toTree adjusted.reset
  obtain ⟨-, -, hfault, -⟩ := ofTree_inverts_toTree faulty adjusted
  exact ⟨hnonempty, hreset hnonempty, htree (hreset hnonempty), (hfault _).2 rfl⟩

end Kernel

end CovarianceSearch
