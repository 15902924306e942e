import CovarianceSearch.Proofs.KernelTree.Key
import CovarianceSearch.Proofs.KernelTree.Labels
import CovarianceSearch.Proofs.KernelTree.Products

namespace CovarianceSearch.KernelTree

open DualNumber TrivSqZeroExt

def changes : KernelTree → List Combinator :=
  OpTree.fold (fun _ ↦ []) fun c parts ↦
    if c.operation? = none then c :: parts.flatten else parts.flatten

def hasEmptySum : KernelTree → Bool :=
  OpTree.fold (fun _ ↦ false) fun c parts ↦ (c = .sum && parts.isEmpty) || parts.any id

variable {c : Combinator} {t : KernelTree} {ts : List KernelTree} {inProduct : Bool}

theorem changes_node (hc : c.operation? ≠ none) :
    changes (.node c ts) = ts.flatMap changes := by
  rw [changes, OpTree.fold_node, if_neg hc]
  rfl

theorem changes_changeNode (hc : c.operation? = none) :
    changes (.node c ts) = c :: ts.flatMap changes := by
  rw [changes, OpTree.fold_node, if_pos hc]
  rfl

theorem hasEmptySum_node_eq_false_iff : hasEmptySum (.node c ts) = false ↔
    (c = .sum → ts ≠ []) ∧ ∀ t ∈ ts, t.hasEmptySum = false := by
  rw [hasEmptySum, OpTree.fold_node, ← hasEmptySum]
  simp

section text

variable {fault : NodeFault}

theorem textWithin_changeNode (hc : c.operation? = none) :
    textWithin (.node c ts) inProduct = .error (.unregistered c) := by
  rw [textWithin, OpTree.fold_node]
  simp only [Combinator.operation, hc]
  rfl

theorem textWithin_node_eq_error {op : Operation} (hc : c.operation = .ok op)
    (h : ts.mapM (textWithin · (op = .product)) = .error fault) :
    textWithin (.node c ts) inProduct = .error fault := by
  have hmap : (ts.map textWithin).mapM (· (op = .product)) = .error fault := by
    rwa [List.mapM_map]
  rw [textWithin, OpTree.fold_node, ← textWithin, hc]
  simp only [hmap, bind, Except.bind]

/-- A tree without changes has a text, and any other fails at the first one. -/
theorem textWithin_of_changes (t : KernelTree) (inProduct : Bool) :
    (t.changes = [] → ∃ s, textWithin t inProduct = .ok s) ∧
      ∀ c, t.changes.head? = some c → textWithin t inProduct = .error (.unregistered c) := by
  induction t using OpTree.induction generalizing inProduct with
  | leaf k => exact ⟨fun _ ↦ ⟨_, rfl⟩, nofun⟩
  | node c ts ih =>
    cases hc : c.operation? with
    | none =>
      rw [changes_changeNode hc, textWithin_changeNode hc]
      refine ⟨nofun, fun c' hc' ↦ ?_⟩
      cases hc'
      rfl
    | some op =>
      have hop : c.operation = .ok op := by rw [Combinator.operation, hc]
      rw [changes_node (by simp [hc])]
      constructor
      · intro h
        have hts : ∀ t ∈ ts, ∃ s, textWithin t (op = .product) = .ok s :=
          fun t ht ↦ (ih t ht _).1 (List.flatMap_eq_nil_iff.1 h t ht)
        obtain ⟨parts, hparts⟩ := Outcome.exists_mapM_eq_ok hts
        exact ⟨_, textWithin_node hop (Outcome.mapM_eq_ok_iff.1 hparts) inProduct⟩
      · intro c' hc'
        rw [List.head?_flatMap, List.findSome?_eq_some_iff] at hc'
        obtain ⟨before, t, after, rfl, ht, hbefore⟩ := hc'
        refine textWithin_node_eq_error hop (Outcome.mapM_eq_error_iff.2 ?_)
        refine ⟨before, t, after, rfl, (ih t (by simp) _).2 c' ht, fun u hu ↦ ?_⟩
        exact (ih u (by simp [hu]) _).1 (List.head?_eq_none_iff.1 (hbefore u hu))

theorem exists_textWithin_iff : (∃ s, textWithin t inProduct = .ok s) ↔ t.changes = [] := by
  refine ⟨fun h ↦ ?_, (textWithin_of_changes t inProduct).1⟩
  obtain ⟨s, hs⟩ := h
  cases hchanges : t.changes with
  | nil => rfl
  | cons c cs =>
    rw [(textWithin_of_changes t inProduct).2 c (by rw [hchanges]; rfl)] at hs
    cases hs

theorem textWithin_eq_error_iff : textWithin t inProduct = .error fault ↔
    ∃ c, t.changes.head? = some c ∧ fault = .unregistered c := by
  have htext := textWithin_of_changes t inProduct
  constructor
  · intro h
    cases hchanges : t.changes with
    | nil =>
      obtain ⟨s, hs⟩ := htext.1 hchanges
      rw [hs] at h
      cases h
    | cons c cs =>
      rw [htext.2 c (by rw [hchanges]; rfl)] at h
      cases h
      exact ⟨c, rfl, rfl⟩
  · intro h
    obtain ⟨c, hc, rfl⟩ := h
    exact htext.2 c hc

end text

theorem Shows.mem_changes (h : t.Shows c) : c ∈ t.changes := by
  obtain ⟨p, hp, -, hc⟩ := h
  induction t using OpTree.induction generalizing p with
  | leaf k => simp_all [products]
  | node c' ts ih =>
    cases c' with
    | sum =>
      rw [products_sumNode] at hp
      obtain ⟨ps, hps, hp⟩ := List.mem_flatten.1 hp
      obtain ⟨t, ht, rfl⟩ := List.mem_map.1 hps
      rw [changes_node (by decide)]
      exact List.mem_flatMap.2 ⟨t, ht, ih t ht p hp hc⟩
    | product =>
      rw [products_productNode] at hp
      obtain ⟨choice, hchoice, rfl⟩ := List.mem_map.1 hp
      obtain ⟨q, hq, hc⟩ := List.mem_flatten.1 hc
      obtain ⟨i, hi, rfl⟩ := List.getElem_of_mem hq
      have hchoice := List.forall₂_map_right_iff.1 (List.mem_sections.1 hchoice)
      have hi' : i < ts.length := hchoice.length_eq ▸ hi
      have ht := List.getElem_mem hi'
      rw [changes_node (by decide)]
      exact List.mem_flatMap.2 ⟨_, ht, ih _ ht _ (hchoice.get hi hi') hc⟩
    | changePoint =>
      rw [changes_changeNode rfl]
      simp_all [products]
    | changeWindow =>
      rw [changes_changeNode rfl]
      simp_all [products]

section count

variable {xs : List ℕ[ε]}

theorem fst_prod_ne_zero (h : ∀ x ∈ xs, x.fst ≠ 0) : xs.prod.fst ≠ 0 := by
  induction xs with
  | nil => exact Nat.one_ne_zero
  | cons x xs ih =>
    obtain ⟨hx, hxs⟩ := List.forall_mem_cons.1 h
    rw [List.prod_cons, fst_mul]
    exact Nat.mul_ne_zero hx (ih hxs)

theorem snd_prod_ne_zero (h : ∀ x ∈ xs, x.fst ≠ 0) (hsnd : ∃ x ∈ xs, x.snd ≠ 0) :
    xs.prod.snd ≠ 0 := by
  induction xs with
  | nil => simp at hsnd
  | cons x xs ih =>
    obtain ⟨hx, hxs⟩ := List.forall_mem_cons.1 h
    rw [List.prod_cons, DualNumber.snd_mul]
    rcases (List.exists_mem_cons_iff ..).1 hsnd with hsnd | hsnd
    · have := Nat.mul_ne_zero hsnd (fst_prod_ne_zero hxs)
      omega
    · have := Nat.mul_ne_zero hx (ih hxs hsnd)
      omega

theorem fst_sum_ne_zero (hne : xs ≠ []) (h : ∀ x ∈ xs, x.fst ≠ 0) : xs.sum.fst ≠ 0 := by
  cases xs with
  | nil => exact absurd rfl hne
  | cons x xs =>
    rw [List.sum_cons, fst_add]
    have := h x (by simp)
    omega

end count

theorem fst_census_changeNode_ne_zero {c' : Combinator} (hc : c'.operation? = none) :
    (census c (.node c' ts)).fst ≠ 0 := by
  rw [census_changeNode hc, fst_weight_change]
  exact Nat.one_ne_zero

theorem snd_census_changeNode_ne_zero (hc : c.operation? = none) :
    (census c (.node c ts)).snd ≠ 0 := by
  rw [census_changeNode hc, snd_weight_change_self]
  exact Nat.one_ne_zero

theorem fst_census_ne_zero (hwhite : .white ∉ t.labels) (hsum : t.hasEmptySum = false) :
    (census c t).fst ≠ 0 := by
  induction t using OpTree.induction with
  | leaf k =>
    have hk : k ≠ .white := fun hk ↦ hwhite (by simp [OpTree.labels, hk])
    simp [census, weight, hk]
  | node c' ts ih =>
    rw [OpTree.labels_node] at hwhite
    obtain ⟨hne, hsums⟩ := hasEmptySum_node_eq_false_iff.1 hsum
    have hparts : ∀ x ∈ ts.map (census c), x.fst ≠ 0 :=
      List.forall_mem_map.2 fun t ht ↦
        ih t ht (fun hk ↦ hwhite (List.mem_flatMap.2 ⟨t, ht, hk⟩)) (hsums t ht)
    cases c' with
    | sum =>
      rw [census_sumNode]
      exact fst_sum_ne_zero (by simpa using hne rfl) hparts
    | product =>
      rw [census_productNode]
      exact fst_prod_ne_zero hparts
    | changePoint => exact fst_census_changeNode_ne_zero rfl
    | changeWindow => exact fst_census_changeNode_ne_zero rfl

/-- Where every product counts, a change that is in the tree shows, or one that it is inside of. -/
theorem exists_snd_census_ne_zero (hwhite : .white ∉ t.labels) (hsum : t.hasEmptySum = false)
    (hchanges : t.changes ≠ []) : ∃ c, (census c t).snd ≠ 0 := by
  induction t using OpTree.induction with
  | leaf k => exact absurd rfl hchanges
  | node c' ts ih =>
    cases hc' : c'.operation? with
    | none => exact ⟨c', snd_census_changeNode_ne_zero hc'⟩
    | some op =>
      rw [changes_node (by simp [hc'])] at hchanges
      obtain ⟨t, ht, hchanges⟩ : ∃ t ∈ ts, changes t ≠ [] := by simpa using hchanges
      rw [OpTree.labels_node] at hwhite
      have hwhites (u) (hu : u ∈ ts) : .white ∉ u.labels := fun hk ↦
        hwhite (List.mem_flatMap.2 ⟨u, hu, hk⟩)
      have hsums := (hasEmptySum_node_eq_false_iff.1 hsum).2
      obtain ⟨c, hc⟩ := ih t ht (hwhites t ht) (hsums t ht) hchanges
      have hpart : ∃ x ∈ ts.map (census c), x.snd ≠ 0 := ⟨_, List.mem_map_of_mem ht, hc⟩
      refine ⟨c, ?_⟩
      cases c' with
      | sum =>
        rw [census_sumNode]
        exact snd_sum_ne_zero_iff.2 hpart
      | product =>
        rw [census_productNode]
        refine snd_prod_ne_zero (List.forall_mem_map.2 fun u hu ↦ ?_) hpart
        exact fst_census_ne_zero (hwhites u hu) (hsums u hu)
      | changePoint => cases hc'
      | changeWindow => cases hc'

section simplified

theorem IsFactor.eq_node_of_changes (h : IsFactor t) (hc : t.changes.head? = some c) :
    c.operation? = none ∧ ∃ ts, t = .node c ts := by
  cases h with
  | leaf k => cases hc
  | change hc' =>
    rw [changes_changeNode hc'] at hc
    cases hc
    exact ⟨hc', _, rfl⟩

theorem IsFactor.fst_census_ne_zero (h : IsFactor t) (hwhite : t ≠ .leaf .white) :
    (census c t).fst ≠ 0 := by
  cases h with
  | leaf k =>
    have hk : k ≠ .white := fun hk ↦ hwhite (congrArg _ hk)
    simp [census, weight, hk]
  | change hc' => exact fst_census_changeNode_ne_zero hc'

theorem IsFactor.snd_census_ne_zero (h : IsFactor t) (hc : t.changes.head? = some c) :
    (census c t).snd ≠ 0 := by
  obtain ⟨hc', ts, rfl⟩ := h.eq_node_of_changes hc
  exact snd_census_changeNode_ne_zero hc'

theorem exists_of_head?_flatMap {α β : Type} {f : α → List β} {as : List α} {b : β}
    (h : (as.flatMap f).head? = some b) : ∃ a ∈ as, (f a).head? = some b := by
  rw [List.head?_flatMap] at h
  exact List.exists_of_findSome?_eq_some h

theorem IsTerm.snd_census_ne_zero (h : IsTerm IsQuiet t) (hc : t.changes.head? = some c) :
    (census c t).snd ≠ 0 := by
  cases h with
  | factor h => exact h.snd_census_ne_zero hc
  | @product ts hts hquiet =>
    rw [changes_node (by decide)] at hc
    obtain ⟨t, ht, hc⟩ := exists_of_head?_flatMap hc
    -- Beside white noise there are only base kernels, and the change is none.
    have hwhite : .leaf .white ∉ ts := by
      intro hwhite
      obtain ⟨-, us, rfl⟩ := (hts t ht).eq_node_of_changes hc
      cases hquiet hwhite _ ht
    rw [census_productNode]
    refine snd_prod_ne_zero (List.forall_mem_map.2 fun u hu ↦ ?_)
      ⟨_, List.mem_map_of_mem ht, (hts t ht).snd_census_ne_zero hc⟩
    exact (hts u hu).fst_census_ne_zero fun hu' ↦ hwhite (hu' ▸ hu)

theorem IsFlat.shows_of_head? (h : IsFlat IsQuiet t) (hc : t.changes.head? = some c) :
    t.Shows c := by
  rw [← snd_census_ne_zero_iff]
  cases h with
  | term h => exact h.snd_census_ne_zero hc
  | @sum ts hts =>
    rw [changes_node (by decide)] at hc
    obtain ⟨t, ht, hc⟩ := exists_of_head?_flatMap hc
    rw [census_sumNode, snd_sum_ne_zero_iff]
    exact ⟨_, List.mem_map_of_mem ht, (hts t ht).snd_census_ne_zero hc⟩

theorem isFlat_simplify (t : KernelTree) : IsFlat IsQuiet t.simplify := by
  have h := isSimplified_simplify t
  apply h.toIsMultipliedOut.isFlat (h.reduced.mono fun ts hts ↦ ?_)
  rw [← hts.2.2]
  exact isQuiet_absorbIntoWhite ts

end simplified

/-- The key of a tree fails for a change that is a factor of a product without white noise once the
tree is multiplied out, and for no other. A change beside white noise, or in a product with an empty
sum, goes unnoticed. -/
theorem key_error_iff_change_shows (t : KernelTree) :
    ((∃ key, t.simplify.text = .ok key) ↔ ∀ c, ¬ t.Shows c) ∧
      (∀ fault, t.simplify.text = .error fault → ∃ c, fault = .unregistered c ∧ t.Shows c) ∧
      (t.changes = [] → ∃ key, t.simplify.text = .ok key) ∧
      (t.changes ≠ [] → .white ∉ t.labels → t.hasEmptySum = false →
        ∃ c ∈ t.changes, t.simplify.text = .error (.unregistered c)) := by
  have herror (fault) (h : t.simplify.text = .error fault) :
      ∃ c, fault = .unregistered c ∧ t.Shows c := by
    obtain ⟨c, hc, rfl⟩ := textWithin_eq_error_iff.1 h
    exact ⟨c, rfl, shows_simplify_iff.1 ((isFlat_simplify t).shows_of_head? hc)⟩
  have hok : (∃ key, t.simplify.text = .ok key) ↔ ∀ c, ¬ t.Shows c := by
    constructor
    · intro h c hc
      have hchange := (shows_simplify_iff.2 hc).mem_changes
      rw [exists_textWithin_iff.1 h] at hchange
      cases hchange
    · intro h
      cases htext : t.simplify.text with
      | ok key => exact ⟨key, rfl⟩
      | error fault =>
        obtain ⟨c, -, hc⟩ := herror fault htext
        exact absurd hc (h c)
  refine ⟨hok, herror, fun hnone ↦ hok.2 fun c hc ↦ ?_, fun hsome hwhite hsum ↦ ?_⟩
  · have hchange := hc.mem_changes
    rw [hnone] at hchange
    cases hchange
  · obtain ⟨c, hc⟩ := exists_snd_census_ne_zero hwhite hsum hsome
    cases htext : t.simplify.text with
    | ok key => exact absurd (snd_census_ne_zero_iff.1 hc) (hok.1 ⟨key, htext⟩ c)
    | error fault =>
      obtain ⟨c', rfl, hc'⟩ := herror fault htext
      exact ⟨c', hc'.mem_changes, rfl⟩

def shiftedTrend : KernelTree :=
  .node .product [.node .sum [.leaf .linear, .node .changePoint [.leaf .rbf, .leaf .linear]],
    .leaf .rbf]

theorem key_error_iff_change_shows_shiftedTrend :
    shiftedTrend.changes ≠ [] ∧ .white ∉ shiftedTrend.labels ∧ shiftedTrend.hasEmptySum = false ∧
      ∃ c ∈ shiftedTrend.changes, shiftedTrend.simplify.text = .error (.unregistered c) :=
  have hchanges : shiftedTrend.changes ≠ [] := by decide
  have hwhite : .white ∉ shiftedTrend.labels := by decide
  ⟨hchanges, hwhite, rfl, (key_error_iff_change_shows shiftedTrend).2.2.2 hchanges hwhite rfl⟩

example : (simplify (.node .product
    [.leaf .white, .node .changePoint [.leaf .linear, .leaf .rbf]])).text = .ok "white" := rfl

example : (simplify (.node .product
    [.node .sum [], .node .changePoint [.leaf .linear, .leaf .rbf]])).text = .ok "" := rfl

end CovarianceSearch.KernelTree
