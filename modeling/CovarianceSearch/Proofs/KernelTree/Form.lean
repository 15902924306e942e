import CovarianceSearch.KernelTree.Form
import CovarianceSearch.Proofs.Document.Datum
import CovarianceSearch.Proofs.KernelTree.Expanded

namespace CovarianceSearch

namespace BaseKernel

theorem toNat_lt_size (degree : UInt32) : (degree.toNat : ℤ) < UInt64.size := by
  have hlt : degree.toNat < UInt32.size := degree.toNat_lt_size
  have hle : UInt32.size ≤ UInt64.size := by decide
  omega

theorem degree?_toNat (degree : UInt32) : degree? (.integer degree.toNat) = some degree := by
  rw [degree?, Datum.natural?_natCast (by exact_mod_cast toNat_lt_size degree), Option.bind_some,
    if_pos degree.toNat_lt_size, UInt32.ofNat_toNat]

theorem ofDatum?_toDatum (k : BaseKernel) : ofDatum? k.toDatum = some k := by
  cases k with
  | polynomial degree =>
    rw [toDatum, ofDatum?, Datum.fields?, Option.bind_eq_bind, Option.bind_some,
      Fields.required?, List.lookup_cons_self, Option.bind_some, degree?_toNat]
    rfl
  | _ => decide

theorem fits_toDatum (k : BaseKernel) : k.toDatum.Fits := by
  cases k with
  | polynomial degree =>
    have hmin : Int64.minValue.toInt ≤ (degree.toNat : ℤ) := by
      have hmin : Int64.minValue.toInt ≤ 0 := by decide
      omega
    refine ⟨List.nodup_singleton _, ⟨List.nodup_singleton _, ⟨hmin, ?_⟩, trivial⟩, trivial⟩
    exact toNat_lt_size degree
  | _ => trivial

theorem nesting_toDatum_le (k : BaseKernel) : k.toDatum.nesting ≤ 2 := by
  cases k with
  | polynomial degree => exact Nat.le_refl 2
  | _ => exact Nat.zero_le 2

theorem reals_toDatum (k : BaseKernel) : k.toDatum.reals = [] := by
  cases k <;> rfl

end BaseKernel

theorem Combinator.ofDatum?_toDatum (c : Combinator) : ofDatum? c.toDatum = some c := by
  cases c <;> decide

namespace KernelTree

variable {c : Combinator} {t : KernelTree} {ts : List KernelTree}

theorem toDatum_leaf (k : BaseKernel) : toDatum (.leaf k) = .table [("Leaf", k.toDatum)] := rfl

theorem toDatum_node (c : Combinator) (ts : List KernelTree) : toDatum (.node c ts) =
    .table [("Internal", .table [("combinator", c.toDatum),
      ("children", .list (ts.map toDatum))])] := by
  rw [toDatum, OpTree.fold_node]

theorem ofItems?_map_toDatum (h : ∀ t ∈ ts, ofDatum? t.toDatum = some t) :
    ofItems? (ts.map toDatum) = some ts := by
  induction ts with
  | nil => rfl
  | cons t ts ih =>
    obtain ⟨ht, hts⟩ := List.forall_mem_cons.1 h
    rw [List.map_cons, ofItems?, ht, ih hts]
    rfl

theorem ofDatum?_toDatum (t : KernelTree) : ofDatum? t.toDatum = some t := by
  induction t using OpTree.induction with
  | leaf k =>
    rw [toDatum_leaf, ofDatum?, if_pos rfl, k.ofDatum?_toDatum, Option.map_some]
  | node c ts ih =>
    have hchildren := ofItems?_map_toDatum ih
    simp [toDatum_node, ofDatum?, ofNode?, operandsIn?, ofList?, hchildren,
      Combinator.ofDatum?_toDatum]

theorem fits_toDatum (t : KernelTree) : t.toDatum.Fits := by
  induction t using OpTree.induction with
  | leaf k => exact ⟨List.nodup_singleton _, k.fits_toDatum, trivial⟩
  | node c ts ih =>
    have hchildren : Datum.ItemsFit (ts.map toDatum) :=
      Datum.itemsFit_iff.2 (List.forall_mem_map.2 ih)
    rw [toDatum_node]
    refine ⟨List.nodup_singleton _, ⟨?_, trivial, hchildren, trivial⟩, trivial⟩
    simp

theorem reals_toDatum (t : KernelTree) : t.toDatum.reals = [] := by
  induction t using OpTree.induction with
  | leaf k => simp [toDatum_leaf, Datum.reals, Datum.fieldReals, k.reals_toDatum]
  | node c ts ih =>
    simp only [toDatum_node, Datum.reals, Datum.fieldReals, Datum.itemReals_eq_flatMap,
      Combinator.toDatum]
    simpa using ih

theorem nesting_toDatum_leaf_le (k : BaseKernel) : (toDatum (.leaf k)).nesting ≤ 3 := by
  have hk := k.nesting_toDatum_le
  simp only [toDatum_leaf, Datum.nesting, Datum.fieldNesting]
  omega

theorem nesting_toDatum_node_le {n : ℕ} (h : ∀ t ∈ ts, t.toDatum.nesting ≤ n) :
    (toDatum (.node c ts)).nesting ≤ n + 3 := by
  have hchildren : Datum.itemNesting (ts.map toDatum) ≤ n :=
    Datum.itemNesting_le_iff.2 (List.forall_mem_map.2 h)
  simp only [toDatum_node, Datum.nesting, Datum.fieldNesting, Combinator.toDatum]
  omega

theorem IsMonomial.nesting_toDatum_le (h : IsMonomial t) : t.toDatum.nesting ≤ 6 := by
  cases h with
  | leaf k => exact (nesting_toDatum_leaf_le k).trans (by decide)
  | product hne => exact nesting_toDatum_node_le (List.forall_mem_map.2 fun k _ ↦
      nesting_toDatum_leaf_le k)

/-- However large a tree is, its kept form has three levels only. -/
theorem IsExpanded.nesting_toDatum_le (h : IsExpanded t) : t.toDatum.nesting ≤ 9 := by
  cases h with
  | monomial h => exact h.nesting_toDatum_le.trans (by decide)
  | sum hne hts => exact nesting_toDatum_node_le fun t ht ↦ (hts t ht).nesting_toDatum_le

end KernelTree

end CovarianceSearch
