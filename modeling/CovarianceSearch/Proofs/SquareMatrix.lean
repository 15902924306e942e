import CovarianceSearch.Proofs.RealScalar
import CovarianceSearch.SquareMatrix

namespace CovarianceSearch

namespace SquareMatrix

variable {R : Type} {n : ℕ} {a : SquareMatrix R n} {i j r c : Fin n}

def toMatrix (a : SquareMatrix R n) : Matrix (Fin n) (Fin n) R := .of a.entry

@[simp] theorem toMatrix_apply (a : SquareMatrix R n) (i j : Fin n) :
    a.toMatrix i j = a.entry i j := rfl

theorem entry_put_self (a : SquareMatrix R n) (i j : Fin n) (v : R) :
    (a.put i j v).entry i j = v := by
  rw [entry_put, if_pos ⟨rfl, rfl⟩]

theorem entry_put_of_ne (v : R) (h : r ≠ i ∨ c ≠ j) : (a.put i j v).entry r c = a.entry r c := by
  rw [entry_put, if_neg]
  rintro ⟨rfl, rfl⟩
  exact h.elim (· rfl) (· rfl)

theorem mem_before : j ∈ before i ↔ j < i := by
  rw [before, List.mem_take_iff_getElem]
  constructor
  · rintro ⟨k, hk, rfl⟩
    rw [List.getElem_finRange, Fin.lt_def]
    simpa using (lt_min_iff.1 hk).1
  · intro h
    exact ⟨j, by simpa using h, by simp⟩

theorem mem_behind : j ∈ behind i ↔ i < j := by
  rw [behind, List.mem_drop_iff_getElem]
  constructor
  · rintro ⟨k, hk, rfl⟩
    rw [List.getElem_finRange, Fin.lt_def]
    simp
    omega
  · intro h
    exact ⟨j - (i + 1), by simp; omega, by ext; simp; omega⟩

theorem nodup_before (i : Fin n) : (before i).Nodup :=
  (List.nodup_finRange n).sublist (List.take_sublist _ _)

theorem nodup_behind (i : Fin n) : (behind i).Nodup :=
  (List.nodup_finRange n).sublist (List.drop_sublist _ _)

theorem take_finRange_succ (i : Fin n) : (List.finRange n).take (i + 1) = before i ++ [i] := by
  rw [before, List.take_succ_eq_append_getElem (by simp), List.getElem_finRange]
  rfl

theorem take_finRange_self (n : ℕ) : (List.finRange n).take n = List.finRange n :=
  List.take_of_length_le (by simp)

theorem drop_finRange (i : Fin n) : (List.finRange n).drop i = i :: behind i := by
  rw [behind, List.drop_eq_getElem_cons (by simp), List.getElem_finRange]
  rfl

theorem sum_before (f : Fin n → ℝ) (i : Fin n) :
    ((before i).map f).sum = ∑ k ∈ Finset.Iio i, f k := by
  have hset : (before i).toFinset = Finset.Iio i := by
    ext k
    rw [List.mem_toFinset, mem_before, Finset.mem_Iio]
  rw [← hset, List.sum_toFinset f (nodup_before i)]

theorem sum_behind (f : Fin n → ℝ) (i : Fin n) :
    ((behind i).map f).sum = ∑ k ∈ Finset.Ioi i, f k := by
  have hset : (behind i).toFinset = Finset.Ioi i := by
    ext k
    rw [List.mem_toFinset, mem_behind, Finset.mem_Ioi]
  rw [← hset, List.sum_toFinset f (nodup_behind i)]

theorem sum_Iic_eq (f : Fin n → ℝ) (i : Fin n) :
    ∑ k ∈ Finset.Iic i, f k = ∑ k ∈ Finset.Iio i, f k + f i := by
  rw [← Finset.Iio_insert, Finset.sum_insert Finset.notMem_Iio_self, add_comm]

theorem sum_Ici_eq (f : Fin n → ℝ) (i : Fin n) :
    ∑ k ∈ Finset.Ici i, f k = ∑ k ∈ Finset.Ioi i, f k + f i := by
  rw [← Finset.Ioi_insert, Finset.sum_insert Finset.notMem_Ioi_self, add_comm]

theorem sum_eq_sum_Iic {f : Fin n → ℝ} (h : ∀ k, i < k → f k = 0) :
    ∑ k, f k = ∑ k ∈ Finset.Iic i, f k := by
  symm
  apply Finset.sum_subset (Finset.subset_univ _)
  intro k _ hk
  exact h k (not_le.1 fun hle ↦ hk (Finset.mem_Iic.2 hle))

theorem sum_eq_sum_Ici {f : Fin n → ℝ} (h : ∀ k, k < i → f k = 0) :
    ∑ k, f k = ∑ k ∈ Finset.Ici i, f k := by
  symm
  apply Finset.sum_subset (Finset.subset_univ _)
  intro k _ hk
  exact h k (not_le.1 fun hle ↦ hk (Finset.mem_Ici.2 hle))

section Loops

variable {σ : Type} {P : ℕ → σ → Prop} {s s' : σ} {m : ℕ}

theorem foldlM_take_induction {f : σ → Fin n → Option σ}
    (hstep : ∀ (i : Fin n) s s', i < m → P i s → f s i = some s' → P (i + 1) s') (hm : m ≤ n)
    (h : ((List.finRange n).take m).foldlM f s = some s') (h0 : P 0 s) : P m s' := by
  induction m generalizing s' with
  | zero =>
    cases h
    exact h0
  | succ m ih =>
    rw [take_finRange_succ ⟨m, hm⟩, List.foldlM_append] at h
    obtain ⟨s'', hs'', hlast⟩ := Option.bind_eq_some_iff.1 h
    have hinv := ih (fun i s s' hi ↦ hstep i s s' (Nat.lt_succ_of_lt hi)) (Nat.le_of_lt hm) hs''
    exact hstep ⟨m, hm⟩ s'' s' (Nat.lt_succ_self m) hinv (by simpa using hlast)

theorem exists_foldlM_take {f : σ → Fin n → Option σ}
    (hstep : ∀ (i : Fin n) s, i < m → P i s → ∃ s', f s i = some s' ∧ P (i + 1) s') (hm : m ≤ n)
    (h0 : P 0 s) : ∃ s', ((List.finRange n).take m).foldlM f s = some s' ∧ P m s' := by
  induction m with
  | zero => exact ⟨s, rfl, h0⟩
  | succ m ih =>
    obtain ⟨s'', hs'', hinv⟩ := ih (fun i s hi ↦ hstep i s (Nat.lt_succ_of_lt hi)) (Nat.le_of_lt hm)
    obtain ⟨s', hs', hinv'⟩ := hstep ⟨m, hm⟩ s'' (Nat.lt_succ_self m) hinv
    refine ⟨s', ?_, hinv'⟩
    rw [take_finRange_succ ⟨m, hm⟩, List.foldlM_append]
    change (((List.finRange n).take m).foldlM f s).bind _ = _
    rw [hs'', Option.bind_some, List.foldlM_cons, hs']
    rfl

/-- Over the indices from the last one down, the invariant is indexed by the passes left. -/
theorem foldr_drop_induction {f : Fin n → σ → σ}
    (hstep : ∀ (i : Fin n) s, P (i + 1) s → P i (f i s)) (h0 : P n s) (hm : m ≤ n) :
    P m (((List.finRange n).drop m).foldr f s) := by
  induction hk : n - m generalizing m with
  | zero =>
    have hmn : m = n := by omega
    rw [hmn, List.drop_of_length_le (by simp)]
    exact h0
  | succ k ih =>
    have hlt : m < n := by omega
    rw [drop_finRange ⟨m, hlt⟩, List.foldr_cons]
    have hleft : n - (m + 1) = k := by omega
    exact hstep ⟨m, hlt⟩ _ (ih hlt hleft)

end Loops

theorem entry_foldl_put (i : Fin n) (v : R) (js : List (Fin n)) (a : SquareMatrix R n)
    (r c : Fin n) :
    (js.foldl (fun a j ↦ a.put i j v) a).entry r c =
      if r = i ∧ c ∈ js then v else a.entry r c := by
  induction js generalizing a with
  | nil => simp
  | cons j js ih =>
    rw [List.foldl_cons, ih, entry_put]
    simp only [List.mem_cons]
    split_ifs <;> tauto

end SquareMatrix

namespace Scalar

theorem subtractProducts_real {ι : Type} (z : ℝ) (ks : List ι) (f g : ι → ℝ) :
    subtractProducts z ks f g = z - (ks.map fun k ↦ f k * g k).sum := by
  rw [subtractProducts]
  induction ks generalizing z with
  | nil => simp
  | cons k ks ih =>
    rw [List.foldl_cons, ih, List.map_cons, List.sum_cons]
    ring

end Scalar

end CovarianceSearch
