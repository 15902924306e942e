namespace CovarianceSearch

/-- Trees whose inner nodes carry an operation on any number of operands. -/
inductive OpTree (ω α : Type) where
  | leaf (a : α)
  | node (op : ω) (children : List (OpTree ω α))

namespace OpTree

universe u

variable {ω α : Type} {β : Type u}

mutual

def fold (f : α → β) (g : ω → List β → β) : OpTree ω α → β
  | .leaf a => f a
  | .node op ts => g op (foldAll f g ts)

def foldAll (f : α → β) (g : ω → List β → β) : List (OpTree ω α) → List β
  | [] => []
  | t :: ts => fold f g t :: foldAll f g ts

end

theorem foldAll_eq_map (f : α → β) (g : ω → List β → β) (ts : List (OpTree ω α)) :
    foldAll f g ts = ts.map (fold f g) := by
  induction ts with
  | nil => rfl
  | cons t ts ih => simp [foldAll, ih]

@[simp] theorem fold_leaf (f : α → β) (g : ω → List β → β) (a : α) :
    fold f g (.leaf a) = f a := rfl

@[simp] theorem fold_node (f : α → β) (g : ω → List β → β) (op : ω) (ts : List (OpTree ω α)) :
    fold f g (.node op ts) = g op (ts.map (fold f g)) := by
  rw [fold, foldAll_eq_map]

@[elab_as_elim, induction_eliminator]
theorem induction {motive : OpTree ω α → Prop} (leaf : ∀ a, motive (.leaf a))
    (node : ∀ op ts, (∀ t ∈ ts, motive t) → motive (.node op ts)) (t : OpTree ω α) : motive t := by
  refine OpTree.rec (motive_2 := fun ts ↦ ∀ t ∈ ts, motive t) leaf node (by simp) ?_ t
  intro t ts ht hts
  simpa using ⟨ht, hts⟩

mutual

def decEq [DecidableEq ω] [DecidableEq α] : (t u : OpTree ω α) → Decidable (t = u)
  | .leaf a, .leaf b =>
    if h : a = b then isTrue (h ▸ rfl) else isFalse fun e ↦ h (OpTree.leaf.inj e)
  | .leaf _, .node _ _ => isFalse nofun
  | .node _ _, .leaf _ => isFalse nofun
  | .node a ts, .node b us =>
    if h : a = b then
      match decEqAll ts us with
      | isTrue h' => isTrue (h ▸ h' ▸ rfl)
      | isFalse h' => isFalse fun e ↦ h' (OpTree.node.inj e).2
    else isFalse fun e ↦ h (OpTree.node.inj e).1

def decEqAll [DecidableEq ω] [DecidableEq α] : (ts us : List (OpTree ω α)) → Decidable (ts = us)
  | [], [] => isTrue rfl
  | [], _ :: _ => isFalse nofun
  | _ :: _, [] => isFalse nofun
  | t :: ts, u :: us =>
    match decEq t u, decEqAll ts us with
    | isTrue h, isTrue h' => isTrue (h ▸ h' ▸ rfl)
    | isFalse h, _ => isFalse fun e ↦ h (List.cons.inj e).1
    | _, isFalse h => isFalse fun e ↦ h (List.cons.inj e).2

end

instance [DecidableEq ω] [DecidableEq α] : DecidableEq (OpTree ω α) := decEq

def map {ω' α' : Type} (g : ω → ω') (f : α → α') : OpTree ω α → OpTree ω' α' :=
  fold (.leaf ∘ f) fun op ts ↦ .node (g op) ts

@[simp] theorem map_leaf {ω' α' : Type} (g : ω → ω') (f : α → α') (a : α) :
    map g f (.leaf a) = .leaf (f a) := rfl

@[simp] theorem map_node {ω' α' : Type} (g : ω → ω') (f : α → α') (op : ω)
    (ts : List (OpTree ω α)) : map g f (.node op ts) = .node (g op) (ts.map (map g f)) := by
  simp [map]

theorem map_map {ω' ω'' α' α'' : Type} (g : ω → ω') (g' : ω' → ω'') (f : α → α') (f' : α' → α'')
    (t : OpTree ω α) : (t.map g f).map g' f' = t.map (g' ∘ g) (f' ∘ f) := by
  induction t with
  | leaf a => rfl
  | node op ts ih =>
    rw [map_node, map_node, map_node, List.map_map]
    exact congrArg _ (List.map_congr_left ih)

def isLeaf : OpTree ω α → Bool
  | .leaf _ => true
  | .node _ _ => false

def label? : OpTree ω α → Option α
  | .leaf a => some a
  | .node _ _ => none

def op? : OpTree ω α → Option ω
  | .leaf _ => none
  | .node op _ => some op

def children : OpTree ω α → List (OpTree ω α)
  | .leaf _ => []
  | .node _ ts => ts

def size : OpTree ω α → Nat := fold (fun _ ↦ 1) fun _ sizes ↦ 1 + sizes.foldr (· + ·) 0

def labels : OpTree ω α → List α := fold ([·]) fun _ parts ↦ parts.flatten

theorem labels_node (op : ω) (ts : List (OpTree ω α)) :
    (node op ts).labels = ts.flatMap labels := by
  rw [labels, fold_node]
  rfl

theorem labels_map {ω' α' : Type} (g : ω → ω') (f : α → α') (t : OpTree ω α) :
    (t.map g f).labels = t.labels.map f := by
  induction t with
  | leaf a => rfl
  | node op ts ih =>
    rw [map_node, labels_node, labels_node, List.flatMap_map, List.map_flatMap, List.flatMap_def,
      List.flatMap_def, List.map_congr_left ih]

end OpTree

end CovarianceSearch
