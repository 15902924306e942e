import CovarianceSearch.Kernel
import Mathlib.Data.List.Basic

namespace CovarianceSearch.Kernel

variable {R : Type} {m : Type → Type} [Monad m] [LawfulMonad m]

/-- What there is to a kernel besides its values: the structure, and how many values each base
kernel has. -/
def skeleton : Kernel R → OpTree Operation (BaseKernel × ℕ) :=
  OpTree.map id fun f ↦ (f.kernel, f.params.length)

theorem skeleton_leaf (f : Component R) :
    skeleton (.leaf f) = .leaf (f.kernel, f.params.length) := rfl

theorem skeleton_node (op : Operation) (ks : List (Kernel R)) :
    skeleton (.node op ks) = .node op (ks.map skeleton) :=
  OpTree.map_node id _ op ks

theorem toTree_eq_map_skeleton (k : Kernel R) :
    k.toTree = k.skeleton.map Operation.toCombinator Prod.fst :=
  (OpTree.map_map id Operation.toCombinator (fun f : Component R ↦ (f.kernel, f.params.length))
    Prod.fst k).symm

theorem parametersBelow_leaf (f : Component R) (path : String) :
    parametersBelow (.leaf f) path = (f.kernel.spec.parameters.zip f.params).map fun q ↦
      (parameterPath path f.kernel q.1, q.2) := rfl

theorem parametersBelow_node (op : Operation) (ks : List (Kernel R)) (path : String) :
    parametersBelow (.node op ks) path =
      (ks.mapIdx fun i k ↦ parametersBelow k (childPath path i)).flatten := by
  rw [parametersBelow, OpTree.fold_node, List.zipIdx_map, List.flatMap_map, List.flatMap_def,
    List.mapIdx_eq_zipIdx_map]
  rfl

theorem parametersBelow_node_eq_flatMap (op : Operation) (ks : List (Kernel R)) (path : String) :
    parametersBelow (.node op ks) path =
      ks.zipIdx.flatMap fun q ↦ parametersBelow q.1 (childPath path q.2) := by
  rw [parametersBelow_node, List.mapIdx_eq_zipIdx_map, List.flatMap_def]

theorem mapParametersBelow_leaf (change : String → R → R) (f : Component R) (path : String) :
    mapParametersBelow change (.leaf f) path = .leaf ⟨f.kernel,
      mapNamed (change ∘ parameterPath path f.kernel) f.kernel.spec.parameters f.params⟩ := rfl

theorem mapParametersBelow_node (change : String → R → R) (op : Operation) (ks : List (Kernel R))
    (path : String) : mapParametersBelow change (.node op ks) path =
      .node op (ks.mapIdx fun i k ↦ mapParametersBelow change k (childPath path i)) := by
  rw [mapParametersBelow, OpTree.fold_node, List.zipIdx_map, List.map_map,
    List.mapIdx_eq_zipIdx_map]
  rfl

theorem visitParametersBelow_leaf (visit : String → R → m R) (f : Component R) (path : String) :
    visitParametersBelow visit (.leaf f) path = (fun vs ↦ .leaf ⟨f.kernel, vs⟩) <$>
      visitNamed (visit ∘ parameterPath path f.kernel) f.kernel.spec.parameters f.params := by
  rw [map_eq_pure_bind]
  rfl

theorem visitParametersBelow_node (visit : String → R → m R) (op : Operation)
    (ks : List (Kernel R)) (path : String) : visitParametersBelow visit (.node op ks) path =
      .node op <$> ks.zipIdx.mapM fun q ↦ visitParametersBelow visit q.1 (childPath path q.2) := by
  rw [visitParametersBelow, OpTree.fold_node, List.zipIdx_map, map_eq_pure_bind, List.mapM_map]
  rfl

theorem map_visitNamed (visit : String → R → m R) (place : String → String)
    (names : List String) (vs : List R) :
    (fun ws ↦ (ws.length, (names.zip ws).map fun q ↦ (place q.1, q.2))) <$>
        visitNamed (visit ∘ place) names vs =
      (vs.length, ·) <$> ((names.zip vs).map fun q ↦ (place q.1, q.2)).mapM fun q ↦
        (q.1, ·) <$> visit q.1 q.2 := by
  induction names generalizing vs with
  | nil => simp [visitNamed]
  | cons p ps ih =>
    cases vs with
    | nil => simp [visitNamed]
    | cons v vs =>
      calc (fun ws ↦ (ws.length, ((p :: ps).zip ws).map fun q ↦ (place q.1, q.2))) <$>
            visitNamed (visit ∘ place) (p :: ps) (v :: vs)
          = visit (place p) v >>= fun w ↦ (fun r ↦ (r.1 + 1, (place p, w) :: r.2)) <$>
              (fun ws ↦ (ws.length, (ps.zip ws).map fun q ↦ (place q.1, q.2))) <$>
                visitNamed (visit ∘ place) ps vs := by
            simp [visitNamed, map_bind]
        _ = (vs.length + 1, ·) <$>
              (((p, v) :: ps.zip vs).map fun q ↦ (place q.1, q.2)).mapM fun q ↦
                (q.1, ·) <$> visit q.1 q.2 := by
            simp only [ih]
            simp [map_bind]

/-- If each element is gone to as the list of its own parts is gone through, then all of them are
gone to as the list of all parts is gone through. -/
theorem map_mapM_zipIdx {α β γ δ ε : Type} {visit : α → ℕ → m β} {go : γ → m δ} {s : α → ε}
    {s' : β → ε} {parts : ℕ → α → List γ} {parts' : ℕ → β → List δ} {as : List α} (n : ℕ)
    (h : ∀ a ∈ as, ∀ i,
      (fun b ↦ (s' b, parts' i b)) <$> visit a i = (s a, ·) <$> (parts i a).mapM go) :
    (fun bs ↦ (bs.map s', (bs.zipIdx n).flatMap fun q ↦ parts' q.2 q.1)) <$>
        (as.zipIdx n).mapM (fun q ↦ visit q.1 q.2) =
      (as.map s, ·) <$> ((as.zipIdx n).flatMap fun q ↦ parts q.2 q.1).mapM go := by
  induction as generalizing n with
  | nil => simp
  | cons a as ih =>
    obtain ⟨ha, has⟩ := List.forall_mem_cons.1 h
    calc (fun bs ↦ (bs.map s', (bs.zipIdx n).flatMap fun q ↦ parts' q.2 q.1)) <$>
          ((a :: as).zipIdx n).mapM (fun q ↦ visit q.1 q.2)
        = ((fun b ↦ (s' b, parts' n b)) <$> visit a n) >>= fun x ↦
            (fun y ↦ (x.1 :: y.1, x.2 ++ y.2)) <$>
              (fun bs ↦ (bs.map s', (bs.zipIdx (n + 1)).flatMap fun q ↦ parts' q.2 q.1)) <$>
                (as.zipIdx (n + 1)).mapM fun q ↦ visit q.1 q.2 := by
          simp [map_bind]
      _ = (s a :: as.map s, ·) <$>
            (parts n a ++ (as.zipIdx (n + 1)).flatMap fun q ↦ parts q.2 q.1).mapM go := by
          rw [ha, ih (n + 1) has]
          simp [map_bind, List.mapM_append]

/-- A visit does to the parameters in turn what would be done to their list, and leaves the rest of
the kernel as it is. -/
theorem map_visitParametersBelow (visit : String → R → m R) (k : Kernel R) (path : String) :
    (fun k' ↦ (skeleton k', parametersBelow k' path)) <$> visitParametersBelow visit k path =
      (skeleton k, ·) <$> (parametersBelow k path).mapM fun q ↦ (q.1, ·) <$> visit q.1 q.2 := by
  induction k using OpTree.induction generalizing path with
  | leaf f =>
    have hvalues := map_visitNamed visit (parameterPath path f.kernel) f.kernel.spec.parameters
      f.params
    have hleaf := congrArg (Functor.map fun r : ℕ × List (String × R) ↦
      ((.leaf (f.kernel, r.1) : OpTree Operation (BaseKernel × ℕ)), r.2)) hvalues
    rw [Functor.map_map, Functor.map_map] at hleaf
    rw [visitParametersBelow_leaf, Functor.map_map, skeleton_leaf]
    exact hleaf
  | node op ks ih =>
    have hoperands := map_mapM_zipIdx 0 fun k hk i ↦ ih k hk (childPath path i)
    have hnode := congrArg (Functor.map fun r ↦ (OpTree.node op r.1, r.2)) hoperands
    rw [Functor.map_map, Functor.map_map] at hnode
    rw [visitParametersBelow_node, Functor.map_map, parametersBelow_node_eq_flatMap, skeleton_node]
    simp only [skeleton_node, parametersBelow_node_eq_flatMap]
    exact hnode

theorem mapM_eq_pure_map {α β : Type} {visit : α → m β} {f : α → β} {as : List α}
    (h : ∀ a ∈ as, visit a = pure (f a)) : as.mapM visit = pure (as.map f) := by
  induction as with
  | nil => rfl
  | cons a as ih =>
    obtain ⟨ha, has⟩ := List.forall_mem_cons.1 h
    rw [List.mapM_cons, ha, pure_bind, ih has, pure_bind]
    rfl

theorem visitNamed_pure (change : String → R → R) (names : List String) (vs : List R) :
    visitNamed (fun p v ↦ pure (change p v)) names vs =
      (pure (mapNamed change names vs) : m (List R)) := by
  induction names generalizing vs with
  | nil => simp [visitNamed, mapNamed]
  | cons p ps ih =>
    cases vs with
    | nil => rfl
    | cons v vs => rw [visitNamed, mapNamed, pure_bind, ih, pure_bind]

theorem visitParametersBelow_pure (change : String → R → R) (k : Kernel R) (path : String) :
    visitParametersBelow (fun p v ↦ pure (change p v)) k path =
      (pure (mapParametersBelow change k path) : m (Kernel R)) := by
  induction k using OpTree.induction generalizing path with
  | leaf f =>
    have hvalues := visitNamed_pure (m := m) (change ∘ parameterPath path f.kernel)
      f.kernel.spec.parameters f.params
    rw [visitParametersBelow_leaf]
    exact (congrArg _ hvalues).trans (map_pure _ _)
  | node op ks ih =>
    have hoperands : ks.zipIdx.mapM (fun q ↦
          visitParametersBelow (fun p v ↦ pure (change p v)) q.1 (childPath path q.2)) =
        (pure (ks.zipIdx.map fun q ↦ mapParametersBelow change q.1 (childPath path q.2)) :
          m (List (Kernel R))) :=
      mapM_eq_pure_map fun q hq ↦ ih q.1 (List.fst_mem_of_mem_zipIdx hq) (childPath path q.2)
    rw [visitParametersBelow_node, hoperands, map_pure, mapParametersBelow_node,
      List.mapIdx_eq_zipIdx_map]

theorem skeleton_and_parametersBelow_mapParametersBelow (change : String → R → R) (k : Kernel R)
    (path : String) :
    skeleton (mapParametersBelow change k path) = skeleton k ∧
      parametersBelow (mapParametersBelow change k path) path =
        (parametersBelow k path).map fun q ↦ (q.1, change q.1 q.2) := by
  have hvisit := map_visitParametersBelow (m := Id) (fun p v ↦ pure (change p v)) k path
  rw [visitParametersBelow_pure, map_pure] at hvisit
  simp only [map_pure, List.mapM_pure] at hvisit
  exact Prod.ext_iff.1 (congrArg Id.run hvisit)

theorem skeleton_mapParametersBelow (change : String → R → R) (k : Kernel R) (path : String) :
    skeleton (mapParametersBelow change k path) = skeleton k :=
  (skeleton_and_parametersBelow_mapParametersBelow change k path).1

theorem parametersBelow_mapParametersBelow (change : String → R → R) (k : Kernel R)
    (path : String) : parametersBelow (mapParametersBelow change k path) path =
      (parametersBelow k path).map fun q ↦ (q.1, change q.1 q.2) :=
  (skeleton_and_parametersBelow_mapParametersBelow change k path).2

theorem toTree_mapParametersBelow (change : String → R → R) (k : Kernel R) (path : String) :
    (mapParametersBelow change k path).toTree = k.toTree := by
  rw [toTree_eq_map_skeleton, skeleton_mapParametersBelow, toTree_eq_map_skeleton]

end CovarianceSearch.Kernel
