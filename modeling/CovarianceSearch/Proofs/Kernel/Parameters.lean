import CovarianceSearch.Proofs.Kernel.Visit
import Mathlib.Algebra.Ring.Nat
import Mathlib.Data.List.Nodup
import Mathlib.Data.List.TakeWhile

namespace CovarianceSearch.Kernel

variable {R : Type}

theorem mapNamed_mapNamed (change change' : String → R → R) (names : List String) (vs : List R) :
    mapNamed change names (mapNamed change' names vs) =
      mapNamed (fun p v ↦ change p (change' p v)) names vs := by
  induction names generalizing vs with
  | nil => simp [mapNamed]
  | cons p ps ih =>
    cases vs with
    | nil => rfl
    | cons v vs =>
      rw [mapNamed, mapNamed, mapNamed, ih]

theorem mapNamed_congr {change change' : String → R → R} {names : List String} {vs : List R}
    (h : ∀ q ∈ names.zip vs, change q.1 q.2 = change' q.1 q.2) :
    mapNamed change names vs = mapNamed change' names vs := by
  induction names generalizing vs with
  | nil => simp [mapNamed]
  | cons p ps ih =>
    cases vs with
    | nil => rfl
    | cons v vs =>
      rw [List.zip_cons_cons] at h
      obtain ⟨hhead, hrest⟩ := List.forall_mem_cons.1 h
      rw [mapNamed, mapNamed, ih hrest, hhead]

theorem mapParametersBelow_mapParametersBelow (change change' : String → R → R) (k : Kernel R)
    (path : String) : mapParametersBelow change (mapParametersBelow change' k path) path =
      mapParametersBelow (fun p v ↦ change p (change' p v)) k path := by
  induction k using OpTree.induction generalizing path with
  | leaf f =>
    rw [mapParametersBelow_leaf, mapParametersBelow_leaf, mapParametersBelow_leaf,
      mapNamed_mapNamed]
    rfl
  | node op ks ih =>
    rw [mapParametersBelow_node, mapParametersBelow_node, mapParametersBelow_node,
      List.mapIdx_mapIdx]
    congr 1
    apply List.mapIdx_eq_mapIdx_iff.2
    intro i hi
    exact ih ks[i] (List.getElem_mem hi) (childPath path i)

theorem mapParametersBelow_congr {change change' : String → R → R} {k : Kernel R} {path : String}
    (h : ∀ q ∈ parametersBelow k path, change q.1 q.2 = change' q.1 q.2) :
    mapParametersBelow change k path = mapParametersBelow change' k path := by
  induction k using OpTree.induction generalizing path with
  | leaf f =>
    rw [mapParametersBelow_leaf, mapParametersBelow_leaf]
    have hagree :
        mapNamed (change ∘ parameterPath path f.kernel) f.kernel.spec.parameters f.params =
          mapNamed (change' ∘ parameterPath path f.kernel) f.kernel.spec.parameters f.params := by
      apply mapNamed_congr
      intro q hq
      exact h (parameterPath path f.kernel q.1, q.2) (List.mem_map_of_mem hq)
    rw [hagree]
  | node op ks ih =>
    rw [mapParametersBelow_node, mapParametersBelow_node]
    congr 1
    apply List.mapIdx_eq_mapIdx_iff.2
    intro i hi
    apply ih ks[i] (List.getElem_mem hi)
    intro q hq
    apply h q
    rw [parametersBelow_node]
    exact List.mem_flatten.2 ⟨_, List.mem_mapIdx.2 ⟨i, hi, rfl⟩, hq⟩

def shapes (k : Kernel R) : List (BaseKernel × ℕ) :=
  k.labels.map fun f ↦ (f.kernel, f.params.length)

theorem shapes_eq_labels_skeleton (k : Kernel R) : k.shapes = k.skeleton.labels :=
  (OpTree.labels_map id (fun f : Component R ↦ (f.kernel, f.params.length)) k).symm

theorem shapes_mapParametersBelow (change : String → R → R) (k : Kernel R) (path : String) :
    (mapParametersBelow change k path).shapes = k.shapes := by
  rw [shapes_eq_labels_skeleton, skeleton_mapParametersBelow, shapes_eq_labels_skeleton]

/-- Every base kernel has as many values as its record lists parameters. -/
def IsRecorded (k : Kernel R) : Prop :=
  ∀ f ∈ k.labels, f.params.length = f.kernel.spec.parameters.length

theorem isRecorded_iff {k : Kernel R} :
    k.IsRecorded ↔ ∀ q ∈ k.shapes, q.2 = q.1.spec.parameters.length := by
  rw [shapes, List.forall_mem_map, IsRecorded]

theorem isRecorded_node_iff {op : Operation} {ks : List (Kernel R)} :
    IsRecorded (.node op ks) ↔ ∀ k ∈ ks, k.IsRecorded := by
  simp only [IsRecorded, OpTree.labels_node, List.mem_flatMap]
  grind

theorem IsRecorded.mapParametersBelow {k : Kernel R} (h : k.IsRecorded)
    (change : String → R → R) (path : String) : (mapParametersBelow change k path).IsRecorded := by
  rw [isRecorded_iff, shapes_mapParametersBelow]
  exact isRecorded_iff.1 h

theorem IsRecorded.exists_run_visitParameters {σ : Type} {k : Kernel R} (h : k.IsRecorded)
    (visit : String → R → StateM σ R) (s : σ) :
    ∃ k' s', (k.visitParameters visit).run s = (k', s') ∧
      (k.parameters.mapM fun q ↦ (q.1, ·) <$> visit q.1 q.2).run s = (k'.parameters, s') ∧
      k'.toTree = k.toTree ∧ k'.IsRecorded := by
  obtain ⟨⟨k', s'⟩, hrun⟩ : ∃ r : Kernel R × σ, (k.visitParameters visit).run s = r := ⟨_, rfl⟩
  obtain ⟨⟨ps, t⟩, hlist⟩ : ∃ r : List (String × R) × σ,
      (k.parameters.mapM fun q ↦ (q.1, ·) <$> visit q.1 q.2).run s = r := ⟨_, rfl⟩
  have hvisit := congrArg (StateT.run · s) (map_visitParametersBelow visit k "kernel")
  simp only [StateT.run_map] at hvisit
  rw [visitParameters] at hrun
  rw [parameters] at hlist
  rw [hrun, hlist] at hvisit
  have hends : ((k'.skeleton, k'.parameters), s') = ((k.skeleton, ps), t) := hvisit
  obtain ⟨⟨hskeleton, rfl⟩, rfl⟩ := by simpa only [Prod.mk.injEq] using hends
  refine ⟨k', s', hrun, hlist, ?_, ?_⟩
  · rw [toTree_eq_map_skeleton, hskeleton, toTree_eq_map_skeleton]
  · rw [isRecorded_iff, shapes_eq_labels_skeleton, hskeleton, ← shapes_eq_labels_skeleton]
    exact isRecorded_iff.1 h

theorem names_parametersBelow_leaf {f : Component R} (h : IsRecorded (.leaf f)) (path : String) :
    (parametersBelow (.leaf f) path).map Prod.fst =
      f.kernel.spec.parameters.map (parameterPath path f.kernel) := by
  have hlength : f.kernel.spec.parameters.length ≤ f.params.length :=
    Nat.le_of_eq (h f (List.mem_singleton_self f)).symm
  have hfst := congrArg (List.map (parameterPath path f.kernel)) (List.map_fst_zip hlength)
  rw [List.map_map] at hfst
  rw [parametersBelow_leaf, List.map_map]
  exact hfst

theorem IsRecorded.values_parametersBelow {k : Kernel R} (h : k.IsRecorded) (path : String) :
    (parametersBelow k path).map Prod.snd = k.labels.flatMap (·.params) := by
  induction k using OpTree.induction generalizing path with
  | leaf f =>
    have hlength : f.params.length ≤ f.kernel.spec.parameters.length :=
      Nat.le_of_eq (h f (List.mem_singleton_self f))
    rw [parametersBelow_leaf, List.map_map]
    exact (List.map_snd_zip hlength).trans (List.flatMap_singleton _ f).symm
  | node op ks ih =>
    have hks := isRecorded_node_iff.1 h
    have hvalues : ∀ q ∈ ks.zipIdx, (parametersBelow q.1 (childPath path q.2)).map Prod.snd =
        q.1.labels.flatMap (·.params) := by
      intro q hq
      have hmem := List.fst_mem_of_mem_zipIdx hq
      exact ih q.1 hmem (hks q.1 hmem) (childPath path q.2)
    calc (parametersBelow (.node op ks) path).map Prod.snd
        = ks.zipIdx.flatMap fun q ↦ (parametersBelow q.1 (childPath path q.2)).map Prod.snd := by
          rw [parametersBelow_node_eq_flatMap, List.map_flatMap]
      _ = ks.zipIdx.flatMap fun q ↦ q.1.labels.flatMap (·.params) := List.flatMap_congr hvalues
      _ = (ks.zipIdx.map Prod.fst).flatMap fun k ↦ k.labels.flatMap (·.params) := by
          rw [List.flatMap_map]
      _ = (OpTree.node op ks).labels.flatMap (·.params) := by
          rw [List.zipIdx_map_fst, OpTree.labels_node, List.flatMap_assoc]

theorem parameterCount_eq_sum (k : Kernel R) :
    k.parameterCount = (k.labels.map (·.params.length)).sum := by
  induction k using OpTree.induction with
  | leaf f => rfl
  | node op ks ih =>
    rw [parameterCount, OpTree.fold_node, OpTree.labels_node, List.map_flatMap, List.flatMap,
      List.sum_flatten, List.map_map]
    exact congrArg List.sum (List.map_congr_left ih)

theorem IsRecorded.length_parametersBelow {k : Kernel R} (h : k.IsRecorded) (path : String) :
    (parametersBelow k path).length = k.parameterCount := by
  rw [← List.length_map Prod.snd, h.values_parametersBelow, List.length_flatMap,
    parameterCount_eq_sum]

/-- The kernel to which `path` leads has a parameter that goes by the name `name`. -/
inductive HasParameter : Kernel R → (path name : String) → Prop
  | leaf {f : Component R} {path p : String} (hp : p ∈ f.kernel.spec.parameters) :
      HasParameter (.leaf f) path (parameterPath path f.kernel p)
  | node {op : Operation} {ks : List (Kernel R)} {path name : String} {i : ℕ} (hi : i < ks.length)
      (hname : HasParameter ks[i] (childPath path i) name) : HasParameter (.node op ks) path name

theorem mem_names_parametersBelow_iff {k : Kernel R} (h : k.IsRecorded) {path name : String} :
    name ∈ (parametersBelow k path).map Prod.fst ↔ k.HasParameter path name := by
  induction k using OpTree.induction generalizing path with
  | leaf f =>
    rw [names_parametersBelow_leaf h, List.mem_map]
    constructor
    · rintro ⟨p, hp, rfl⟩
      exact .leaf hp
    · intro hname
      cases hname with
      | leaf hp => exact ⟨_, hp, rfl⟩
  | node op ks ih =>
    have hks := isRecorded_node_iff.1 h
    have hchild (i : ℕ) (hi : i < ks.length) :
        name ∈ (parametersBelow ks[i] (childPath path i)).map Prod.fst ↔
          HasParameter ks[i] (childPath path i) name :=
      ih _ (List.getElem_mem hi) (hks _ (List.getElem_mem hi))
    rw [parametersBelow_node, List.map_flatten, List.mem_flatten]
    constructor
    · rintro ⟨names, hnames, hname⟩
      rw [List.mem_map] at hnames
      obtain ⟨part, hpart, rfl⟩ := hnames
      obtain ⟨i, hi, rfl⟩ := List.mem_mapIdx.1 hpart
      exact .node hi ((hchild i hi).1 hname)
    · intro hname
      cases hname with
      | @node _ _ _ _ i hi hname =>
        refine ⟨_, ?_, (hchild i hi).2 hname⟩
        exact List.mem_map_of_mem (List.mem_mapIdx.2 ⟨i, hi, rfl⟩)

variable {k : Kernel R} {path name : String}

theorem toList_childPath (path : String) (i : ℕ) :
    (childPath path i).toList = path.toList ++ '/' :: Nat.toDigits 10 i := by
  simp [childPath]

theorem toList_parameterPath (path : String) (b : BaseKernel) (p : String) :
    (parameterPath path b p).toList =
      path.toList ++ '/' :: (b.spec.token.toList ++ '/' :: p.toList) := by
  simp [parameterPath]

theorem parameterPath_injective (path : String) (b : BaseKernel) :
    Function.Injective (parameterPath path b) := by
  intro p q h
  have h := congrArg String.toList h
  rw [toList_parameterPath, toList_parameterPath] at h
  exact String.toList_injective (by simpa using h)

theorem nodup_parameters (b : BaseKernel) : b.spec.parameters.Nodup := by
  cases b <;> simp [BaseKernel.spec]

theorem exists_toList_eq_append (h : name ∈ (parametersBelow k path).map Prod.fst) :
    ∃ rest, name.toList = path.toList ++ '/' :: rest := by
  induction k using OpTree.induction generalizing path with
  | leaf f =>
    rw [parametersBelow_leaf, List.map_map] at h
    obtain ⟨q, -, rfl⟩ := List.mem_map.1 h
    exact ⟨_, toList_parameterPath path f.kernel q.1⟩
  | node op ks ih =>
    rw [parametersBelow_node, List.map_flatten, List.mem_flatten] at h
    obtain ⟨names, hnames, hname⟩ := h
    obtain ⟨part, hpart, rfl⟩ := List.mem_map.1 hnames
    obtain ⟨i, hi, rfl⟩ := List.mem_mapIdx.1 hpart
    obtain ⟨rest, hrest⟩ := ih ks[i] (List.getElem_mem hi) hname
    refine ⟨Nat.toDigits 10 i ++ '/' :: rest, ?_⟩
    rw [hrest, toList_childPath, List.append_assoc]
    rfl

theorem takeWhile_isDigit (i : ℕ) (rest : List Char) :
    (Nat.toDigits 10 i ++ '/' :: rest).takeWhile Char.isDigit = Nat.toDigits 10 i := by
  have hdigits : ∀ c ∈ Nat.toDigits 10 i, c.isDigit = true :=
    fun c hc ↦ Nat.isDigit_of_mem_toDigits (by decide) (by decide) hc
  rw [List.takeWhile_append_of_pos hdigits, List.takeWhile_cons_of_neg (by decide), List.append_nil]

/-- The number of a child is read off any path that leads through it. -/
theorem eq_of_mem_below_child {l : Kernel R} {i j : ℕ}
    (hi : name ∈ (parametersBelow k (childPath path i)).map Prod.fst)
    (hj : name ∈ (parametersBelow l (childPath path j)).map Prod.fst) : i = j := by
  obtain ⟨rest, hrest⟩ := exists_toList_eq_append hi
  obtain ⟨rest', hrest'⟩ := exists_toList_eq_append hj
  have hsame := hrest.symm.trans hrest'
  simp only [toList_childPath, List.append_assoc, List.cons_append] at hsame
  have hbehind := (List.cons.inj (List.append_cancel_left hsame)).2
  have hdigits := congrArg (List.takeWhile Char.isDigit) hbehind
  rw [takeWhile_isDigit, takeWhile_isDigit] at hdigits
  calc i = Nat.ofDigitChars 10 (Nat.toDigits 10 i) 0 := Nat.ofDigitChars_ten_toDigits.symm
    _ = Nat.ofDigitChars 10 (Nat.toDigits 10 j) 0 := by rw [hdigits]
    _ = j := Nat.ofDigitChars_ten_toDigits

/-- No two parameters go by the same path. -/
theorem IsRecorded.nodup_names (h : k.IsRecorded) (path : String) :
    ((parametersBelow k path).map Prod.fst).Nodup := by
  induction k using OpTree.induction generalizing path with
  | leaf f =>
    rw [names_parametersBelow_leaf h]
    exact (nodup_parameters f.kernel).map (parameterPath_injective path f.kernel)
  | node op ks ih =>
    have hks := isRecorded_node_iff.1 h
    rw [parametersBelow_node, List.map_flatten, List.nodup_flatten]
    constructor
    · intro names hnames
      obtain ⟨part, hpart, rfl⟩ := List.mem_map.1 hnames
      obtain ⟨i, hi, rfl⟩ := List.mem_mapIdx.1 hpart
      exact ih ks[i] (List.getElem_mem hi) (hks _ (List.getElem_mem hi)) (childPath path i)
    · rw [List.pairwise_iff_getElem]
      intro i j hi hj hlt name hnamei hnamej
      rw [List.getElem_map, List.getElem_mapIdx] at hnamei hnamej
      exact hlt.ne (eq_of_mem_below_child hnamei hnamej)

end CovarianceSearch.Kernel
