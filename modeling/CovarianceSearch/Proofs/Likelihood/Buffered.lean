import CovarianceSearch.Likelihood.Buffered
import CovarianceSearch.Proofs.Likelihood.Gaussian
import CovarianceSearch.Proofs.Outcome

namespace CovarianceSearch

namespace SquareMatrix

variable {R : Type} {n : ℕ}

def cells (a : SquareMatrix R n) : Array R := a.entries.toArray

theorem size_cells (a : SquareMatrix R n) : a.cells.size = n * n := a.entries.size_toArray

theorem exists_position (p : Fin (n * n)) : ∃ i j : Fin n, position i j = p := by
  have hn : 0 < n := Nat.pos_of_mul_pos_left (Nat.zero_lt_of_lt p.isLt)
  have hrow : p.val / n < n := Nat.div_lt_of_lt_mul p.isLt
  exact ⟨⟨p / n, hrow⟩, ⟨p % n, Nat.mod_lt _ hn⟩, Fin.ext (Nat.div_add_mod' p n)⟩

theorem ext_entry {a b : SquareMatrix R n} (h : ∀ i j, a.entry i j = b.entry i j) : a = b := by
  obtain ⟨entries⟩ := a
  obtain ⟨entries'⟩ := b
  congr 1
  ext p hp
  obtain ⟨i, j, hij⟩ := exists_position ⟨p, hp⟩
  have hentry := h i j
  simp only [entry, hij] at hentry
  exact hentry

theorem range_eq_map_val {m : ℕ} (hm : m ≤ n) :
    List.range m = ((List.finRange n).take m).map Fin.val := by
  rw [List.map_take, List.map_coe_finRange_eq_range, List.take_range, Nat.min_eq_left hm]

theorem range_eq_before (i : Fin n) : List.range i = (before i).map Fin.val :=
  range_eq_map_val i.isLt.le

theorem range'_eq_behind (i : Fin n) :
    List.range' (i + 1) (n - (i + 1)) = (behind i).map Fin.val := by
  rw [behind, List.map_drop, List.map_coe_finRange_eq_range, List.range_eq_range',
    List.drop_range']
  simp

end SquareMatrix

namespace Likelihood.Buffered

open Scalar SquareMatrix

section Loops

variable {n : ℕ} {σ τ : Type} {f : τ → ℕ → Except Halt τ} {embed : σ → τ}

def orHalt (e : Halt) (o : Option τ) : Except Halt τ := o.elim (.error e) .ok

/-- A loop over indices without bounds goes like the one with them, if each of its passes does. -/
theorem foldlM_map_val {g : σ → Fin n → Option σ} {e : Halt}
    (h : ∀ s (i : Fin n), f (embed s) i = orHalt e ((g s i).map embed)) (is : List (Fin n))
    (s : σ) :
    (is.map Fin.val).foldlM f (embed s) = orHalt e ((is.foldlM g s).map embed) := by
  induction is generalizing s with
  | nil => rfl
  | cons i is ih =>
    rw [List.map_cons, List.foldlM_cons, List.foldlM_cons, h]
    cases g s i with
    | none => rfl
    | some s' => exact ih s'

variable (embed) in
theorem foldlM_map_val_eq_ok {g : σ → Fin n → σ}
    (h : ∀ s (i : Fin n), f (embed s) i = .ok (embed (g s i))) (is : List (Fin n)) (s : σ) :
    (is.map Fin.val).foldlM f (embed s) = .ok (embed (is.foldl g s)) := by
  induction is generalizing s with
  | nil => rfl
  | cons i is ih =>
    rw [List.map_cons, List.foldlM_cons, List.foldl_cons, h]
    exact ih (g s i)

end Loops

section Accesses

variable {R : Type} {n : ℕ}

theorem read_cells (a : SquareMatrix R n) (i j : Fin n) :
    read .covariances a.cells (i * n + j) = .ok (a.entry i j) := by
  have hbound : i * n + j < a.cells.size := Nat.lt_of_lt_of_eq (position i j).isLt a.size_cells.symm
  rw [read, dif_pos hbound]
  rfl

theorem write_cells (a : SquareMatrix R n) (i j : Fin n) (v : R) :
    write .covariances a.cells (i * n + j) v = .ok (a.put i j v).cells := by
  have hbound : i * n + j < a.cells.size := Nat.lt_of_lt_of_eq (position i j).isLt a.size_cells.symm
  rw [write, dif_pos hbound]
  rfl

theorem read_toArray (buffer : Buffer) (z : Vector R n) (i : Fin n) :
    read buffer z.toArray i = .ok (z.get i) := by
  have hbound : i < z.toArray.size := Nat.lt_of_lt_of_eq i.isLt z.size_toArray.symm
  rw [read, dif_pos hbound]
  rfl

theorem write_toArray (buffer : Buffer) (z : Vector R n) (i : Fin n) (v : R) :
    write buffer z.toArray i v = .ok (putUnknown z i v).toArray := by
  have hbound : i < z.toArray.size := Nat.lt_of_lt_of_eq i.isLt z.size_toArray.symm
  rw [write, dif_pos hbound]
  rfl

theorem read_toArray_list (buffer : Buffer) (xs : List R) (i : ℕ) :
    read buffer xs.toArray i = orHalt (.outOfBounds buffer i) xs[i]? := by
  unfold read
  split
  · next h =>
    rw [List.getElem?_eq_getElem (by simpa using h)]
    rfl
  · next h =>
    rw [List.getElem?_eq_none (by simpa using h)]
    rfl

end Accesses

variable {R : Type} [Scalar R] {n : ℕ}

theorem subtractProducts_map_val {f g : ℕ → Except Halt R} {f' g' : Fin n → R}
    (hf : ∀ k : Fin n, f k = .ok (f' k)) (hg : ∀ k : Fin n, g k = .ok (g' k)) (z : R)
    (ks : List (Fin n)) :
    subtractProducts z (ks.map Fin.val) f g = .ok (Scalar.subtractProducts z ks f' g') := by
  refine foldlM_map_val_eq_ok id ?_ ks z
  intro z k
  rw [hf, hg]
  rfl

theorem factorAt_eq (i : Fin n) (a : SquareMatrix R n) (j : Fin n) :
    factorAt n i a.cells j =
      orHalt (.fit .notPositiveDefinite) ((factorAt? i a j).map cells) := by
  have hrest : subtractProducts (a.entry i j) ((before j).map Fin.val)
      (fun k ↦ read .covariances a.cells (i * n + k))
      (fun k ↦ read .covariances a.cells (j * n + k)) =
        .ok (Scalar.subtractProducts (a.entry i j) (before j) (a.entry i) (a.entry j)) :=
    subtractProducts_map_val (read_cells a i) (read_cells a j) _ _
  rw [factorAt, read_cells, range_eq_before]
  change subtractProducts _ _ _ _ >>= _ = _
  rw [hrest, factorAt?]
  change (if i.val = j.val then _ else _) = _
  by_cases hij : i = j
  · subst hij
    rw [if_pos rfl, if_pos rfl]
    split
    · exact write_cells a i i _
    · rfl
  · rw [if_neg (Fin.val_ne_of_ne hij), if_neg hij, read_cells]
    exact write_cells a i j _

theorem factorRow_eq (a : SquareMatrix R n) (i : Fin n) :
    factorRow n a.cells i = orHalt (.fit .notPositiveDefinite) ((factorRow? a i).map cells) := by
  rw [factorRow, range_eq_map_val i.isLt, foldlM_map_val (factorAt_eq i), factorRow?,
    range'_eq_behind]
  cases ((List.finRange n).take (i + 1)).foldlM (factorAt? i) a with
  | none => rfl
  | some b => exact foldlM_map_val_eq_ok _ (fun a j ↦ write_cells a i j zero) (behind i) b

theorem cholesky_eq (a : SquareMatrix R n) :
    cholesky n a.cells = orHalt (.fit .notPositiveDefinite) ((cholesky? a).map cells) := by
  rw [cholesky, range_eq_map_val le_rfl, take_finRange_self]
  exact foldlM_map_val factorRow_eq _ a

theorem addNoise_eq (noise : R) (a : SquareMatrix R n) : addNoise noise n a.cells =
    .ok ((List.finRange n).foldl (fun a i ↦ a.put i i (a.entry i i + noise)) a).cells := by
  rw [addNoise, range_eq_map_val le_rfl, take_finRange_self]
  refine foldlM_map_val_eq_ok _ ?_ _ a
  intro a i
  rw [read_cells]
  exact write_cells a i i _

theorem solveColumn_eq (l : SquareMatrix R n) (z alpha : Vector R n) (i : Fin n) :
    solveColumn n l.cells z.toArray alpha.toArray i =
      .ok (Likelihood.solveColumn l z alpha i).toArray := by
  have hrest : subtractProducts (z.get i) ((behind i).map Fin.val)
      (fun k ↦ read .covariances l.cells (k * n + i)) (fun k ↦ read .backward alpha.toArray k) =
        .ok (Scalar.subtractProducts (z.get i) (behind i) (l.entry · i) alpha.get) :=
    subtractProducts_map_val (fun k ↦ read_cells l k i) (read_toArray .backward alpha) _ _
  rw [solveColumn, read_toArray, range'_eq_behind]
  change subtractProducts _ _ _ _ >>= _ = _
  rw [hrest, read_cells]
  exact write_toArray .backward alpha i _

theorem solveUpper_eq (l : SquareMatrix R n) (z : Vector R n) :
    solveUpper n l.cells z.toArray = .ok (Likelihood.solveUpper l z).toArray := by
  rw [solveUpper, range_eq_map_val le_rfl, take_finRange_self, ← List.map_reverse]
  exact foldlM_map_val_eq_ok _ (solveColumn_eq l z) _ (Vector.replicate n zero)

theorem solveRow_eq (l : SquareMatrix R n) (ys : List R) (z : Vector R n) (i : Fin n) :
    solveRow n l.cells ys.toArray z.toArray i =
      orHalt (.outOfBounds .targets i) ((solveRow? l ys z i).map Vector.toArray) := by
  rw [solveRow, read_toArray_list, solveRow?, range_eq_before]
  cases ys[i.val]? with
  | none => rfl
  | some y =>
    have hrest : subtractProducts y ((before i).map Fin.val)
        (fun k ↦ read .covariances l.cells (i * n + k)) (fun k ↦ read .forward z.toArray k) =
          .ok (Scalar.subtractProducts y (before i) (l.entry i) z.get) :=
      subtractProducts_map_val (read_cells l i) (read_toArray .forward z) _ _
    change subtractProducts _ _ _ _ >>= _ = _
    rw [hrest, read_cells]
    exact write_toArray .forward z i _

theorem le_length_of_foldlM_solveRow? {l : SquareMatrix R n} {ys : List R} {z z' : Vector R n}
    {m : ℕ} (hm : m ≤ n) (h : ((List.finRange n).take m).foldlM (solveRow? l ys) z = some z') :
    m ≤ ys.length := by
  refine foldlM_take_induction (P := fun i _ ↦ i ≤ ys.length) ?_ hm h (Nat.zero_le _)
  intro i s s' _ _ hs'
  obtain ⟨y, hy, -⟩ := Option.bind_eq_some_iff.1 hs'
  exact (List.getElem?_eq_some_iff.1 hy).1

/-- The first target that is missing is the one behind the last. -/
theorem solveRow_eq_of_le {ys : List R} {i : Fin n} (h : i ≤ ys.length) (l : SquareMatrix R n)
    (z : Vector R n) : solveRow n l.cells ys.toArray z.toArray i =
      orHalt (.outOfBounds .targets ys.length) ((solveRow? l ys z i).map Vector.toArray) := by
  rw [solveRow_eq]
  rcases Nat.lt_or_eq_of_le h with hlt | heq
  · rw [solveRow?, List.getElem?_eq_getElem hlt]
    rfl
  · rw [heq]

theorem foldlM_solveRow_eq (l : SquareMatrix R n) (ys : List R) (z : Vector R n) {m : ℕ}
    (hm : m ≤ n) : (List.range m).foldlM (solveRow n l.cells ys.toArray) z.toArray =
      orHalt (.outOfBounds .targets ys.length)
        ((((List.finRange n).take m).foldlM (solveRow? l ys) z).map Vector.toArray) := by
  induction m with
  | zero => rfl
  | succ m ih =>
    have hbefore : (List.range m).foldlM (solveRow n l.cells ys.toArray) z.toArray =
        orHalt (.outOfBounds .targets ys.length)
          (((before ⟨m, hm⟩).foldlM (solveRow? l ys) z).map Vector.toArray) := ih (Nat.le_of_lt hm)
    rw [List.range_succ, List.foldlM_append, hbefore, take_finRange_succ ⟨m, hm⟩,
      List.foldlM_append]
    cases hz : (before ⟨m, hm⟩).foldlM (solveRow? l ys) z with
    | none => rfl
    | some z' =>
      have hle := le_length_of_foldlM_solveRow? (Nat.le_of_lt hm) hz
      have hrow := solveRow_eq_of_le (i := ⟨m, hm⟩) hle l z'
      change [m].foldlM (solveRow n l.cells ys.toArray) z'.toArray =
        orHalt _ (([⟨m, hm⟩].foldlM (solveRow? l ys) z').map Vector.toArray)
      rw [List.foldlM_cons, List.foldlM_cons, hrow]
      cases solveRow? l ys z' ⟨m, hm⟩ <;> rfl

theorem solveLower_eq (l : SquareMatrix R n) (ys : List R) : solveLower n l.cells ys.toArray =
    orHalt (.outOfBounds .targets ys.length) ((solveLower? l ys).map Vector.toArray) := by
  have hloop := foldlM_solveRow_eq l ys (.replicate n zero) le_rfl
  rw [take_finRange_self] at hloop
  exact hloop

theorem mapM_diagonal_eq (l : SquareMatrix R n) :
    (List.range n).mapM (fun i ↦ log <$> read .covariances l.cells (i * n + i)) =
      .ok ((List.finRange n).map fun i ↦ log (l.entry i i)) := by
  have hread (i : Fin n) : log <$> read .covariances l.cells (i * n + i) =
      .ok (log (l.entry i i)) := by
    rw [read_cells]
    rfl
  rw [range_eq_map_val le_rfl, take_finRange_self]
  apply Outcome.mapM_eq_ok_iff.2
  rw [List.forall₂_map_left_iff, List.forall₂_map_right_iff]
  exact List.forall₂_same.2 fun i _ ↦ hread i

theorem lossOfFactor_eq (l : SquareMatrix R n) (ys : List R) (z : Vector R n) :
    lossOfFactor n l.cells ys.toArray z.toArray = .ok (Likelihood.lossOfFactor l ys z) := by
  rw [lossOfFactor, solveUpper_eq]
  change (List.range n).mapM (m := Except Halt) _ >>= _ = _
  rw [mapM_diagonal_eq]
  rfl

section Gram

variable (k : Kernel R) (xs : List R)

def lower (i j : Fin xs.length) : R := k.covariance (xs.get i) (xs.get j) (i = j)

def putPair (i : Fin xs.length) (a : SquareMatrix R xs.length) (j : Fin xs.length) :
    SquareMatrix R xs.length :=
  (a.put i j (lower k xs i j)).put j i (lower k xs i j)

def putRow (a : SquareMatrix R xs.length) (i : Fin xs.length) : SquareMatrix R xs.length :=
  ((List.finRange _).take (i + 1)).foldl (putPair k xs i) a

variable {k xs}

theorem enterPair_eq (i : Fin xs.length) (a : SquareMatrix R xs.length) (j : Fin xs.length) :
    enterPair k xs.toArray i a.cells j = .ok (putPair k xs i a j).cells := by
  have hread (i : Fin xs.length) : read .inputs xs.toArray i = .ok xs[i] := by
    rw [read_toArray_list, List.getElem?_eq_getElem i.isLt]
    rfl
  rw [enterPair, hread, hread]
  change write .covariances a.cells (i * xs.length + j) _ >>= _ = _
  rw [write_cells]
  simp only [← Fin.ext_iff]
  exact write_cells _ j i _

theorem entry_foldl_putPair (i : Fin xs.length) (js : List (Fin xs.length))
    (a : SquareMatrix R xs.length) (r c : Fin xs.length) :
    (js.foldl (putPair k xs i) a).entry r c =
      if r = i ∧ c ∈ js then lower k xs i c
      else if c = i ∧ r ∈ js then lower k xs i r else a.entry r c := by
  induction js generalizing a with
  | nil => simp
  | cons j js ih =>
    rw [List.foldl_cons, ih, putPair, entry_put, entry_put]
    simp only [List.mem_cons]
    grind

/-- Every entry is put in the row that the greater of its two indices stands for. -/
theorem entry_foldl_putRow (is : List (Fin xs.length)) (a : SquareMatrix R xs.length)
    (r c : Fin xs.length) : (is.foldl (putRow k xs) a).entry r c =
      if c ≤ r then if r ∈ is then lower k xs r c else a.entry r c
      else if c ∈ is then lower k xs c r else a.entry r c := by
  induction is generalizing a with
  | nil => simp
  | cons i is ih =>
    rw [List.foldl_cons, ih, putRow, entry_foldl_putPair, take_finRange_succ]
    simp only [List.mem_append, mem_before, List.mem_cons]
    grind

theorem foldl_putRow : (List.finRange xs.length).foldl (putRow k xs)
    ⟨.replicate (xs.length * xs.length) zero⟩ = gramMatrix k xs := by
  apply ext_entry
  intro r c
  rw [entry_foldl_putRow, entry_gramMatrix]
  simp only [List.mem_finRange, if_true]
  by_cases hle : c ≤ r
  · rw [if_pos hle, if_pos hle]
    rfl
  · have hne : c ≠ r := fun h ↦ hle h.le
    rw [if_neg hle, if_neg hle, lower, decide_eq_false hne]
    rfl

theorem gram_eq : gram k xs.toArray = .ok (gramMatrix k xs).cells := by
  have hrow (a : SquareMatrix R xs.length) (i : Fin xs.length) :
      (List.range (i + 1)).foldlM (enterPair k xs.toArray i) a.cells =
        .ok (putRow k xs a i).cells := by
    rw [range_eq_map_val i.isLt]
    exact foldlM_map_val_eq_ok _ (enterPair_eq i) _ a
  rw [← foldl_putRow, gram, List.size_toArray, range_eq_map_val le_rfl, take_finRange_self]
  exact foldlM_map_val_eq_ok (f := fun a i ↦ (List.range (i + 1)).foldlM (enterPair k _ i) a) _ hrow
    _ ⟨.replicate (xs.length * xs.length) zero⟩

end Gram

/-- Where buffers do not carry their sizes in their types, every access is one that they allow, but
for that of a target which is missing. -/
theorem negativeLogLikelihood_eq (k : Kernel R) (noise : R) (xs ys : List R) :
    negativeLogLikelihood k noise xs.toArray ys.toArray =
      (Likelihood.negativeLogLikelihood k noise xs ys).mapError (Fault.toHalt ys.length) := by
  rw [Likelihood.negativeLogLikelihood]
  cases xs with
  | nil => rfl
  | cons x rest =>
    generalize hxs : x :: rest = xs
    have hne : xs.length ≠ 0 := by simp [← hxs]
    have hbuffer : negativeLogLikelihood k noise xs.toArray ys.toArray = (do
        let l ← cholesky xs.length (covarianceMatrix k noise xs).cells
        let loss ← lossOfFactor xs.length l ys.toArray (← solveLower xs.length l ys.toArray)
        if isFinite loss then return loss else throw (.fit .nonFinite)) := by
      rw [negativeLogLikelihood, List.size_toArray, if_neg hne, gram_eq]
      change addNoise noise xs.length (gramMatrix k xs).cells >>= _ = _
      rw [addNoise_eq]
      rfl
    rw [hbuffer, cholesky_eq, if_neg (by simpa using hne), lossOf]
    cases cholesky? (covarianceMatrix k noise xs) with
    | none => rfl
    | some l =>
      change solveLower xs.length l.cells ys.toArray >>= _ = _
      rw [solveLower_eq]
      dsimp only
      cases solveLower? l ys with
      | none => rfl
      | some z =>
        change lossOfFactor xs.length l.cells ys.toArray z.toArray >>= _ = _
        rw [lossOfFactor_eq]
        dsimp only
        change (if isFinite _ then _ else _) = _
        split <;> rfl

end Likelihood.Buffered

end CovarianceSearch
