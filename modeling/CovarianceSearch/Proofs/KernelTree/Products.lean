import CovarianceSearch.Proofs.KernelTree.Flat
import Mathlib.Algebra.DualNumber
import Mathlib.Data.List.Sections

namespace CovarianceSearch.KernelTree

open DualNumber TrivSqZeroExt

/-- What a product has as a factor: a base kernel, or a change, which only goes by its
combinator. -/
inductive Factor where
  | kernel (k : BaseKernel)
  | change (c : Combinator)
  deriving DecidableEq

/-- The products that a tree is multiplied out to, each with its factors. A sum has those of its
operands, and a product one for every choice of one product of each operand. Changes are factors as
they stand. -/
def products : KernelTree → List (List Factor) :=
  OpTree.fold (fun k ↦ [[.kernel k]]) fun c parts ↦ match c with
    | .sum => parts.flatten
    | .product => parts.sections.map List.flatten
    | .changePoint => [[.change .changePoint]]
    | .changeWindow => [[.change .changeWindow]]

/-- Whether a change is among the factors of a product that has no white noise. -/
def Shows (t : KernelTree) (c : Combinator) : Prop :=
  ∃ p ∈ t.products, .kernel .white ∉ p ∧ .change c ∈ p

theorem products_sumNode (ts : List KernelTree) :
    products (.node .sum ts) = (ts.map products).flatten := by
  rw [products, OpTree.fold_node]

theorem products_productNode (ts : List KernelTree) :
    products (.node .product ts) = (ts.map products).sections.map List.flatten := by
  rw [products, OpTree.fold_node]

/-- White noise counts as zero and the change `c` as `1 + ε`, so that a product counts only without
white noise, and `ε` as often as `c` is a factor of it. -/
def weight (c : Combinator) : Factor → ℕ[ε]
  | .kernel k => if k = .white then 0 else 1
  | .change c' => if c' = c then 1 + ε else 1

def census (c : Combinator) : KernelTree → ℕ[ε] :=
  value (fun k ↦ weight c (.kernel k)) (fun _ ↦ weight c (.change .changePoint))
    fun _ ↦ weight c (.change .changeWindow)

variable {c : Combinator} {t : KernelTree} {ts : List KernelTree}

@[simp] theorem census_sumNode :
    census c (.node .sum ts) = (ts.map (census c)).sum := value_sumNode ..

@[simp] theorem census_productNode :
    census c (.node .product ts) = (ts.map (census c)).prod := value_productNode ..

theorem census_changeNode {c' : Combinator} (hc : c'.operation? = none) :
    census c (.node c' ts) = weight c (.change c') := by
  rw [census, value, OpTree.fold_node]
  cases c' with
  | sum => cases hc
  | product => cases hc
  | changePoint => rfl
  | changeWindow => rfl

theorem fst_weight_change (c c' : Combinator) : (weight c (.change c')).fst = 1 := by
  by_cases hc : c' = c <;> simp [weight, hc]

theorem snd_weight_change_self (c : Combinator) : (weight c (.change c)).snd = 1 := by
  simp [weight]

theorem sum_sections {α R : Type} [CommSemiring R] (f : α → R) (parts : List (List (List α))) :
    (parts.sections.map fun s ↦ (s.flatten.map f).prod).sum =
      (parts.map fun ps ↦ (ps.map fun p ↦ (p.map f).prod).sum).prod := by
  induction parts with
  | nil => simp
  | cons ps parts ih =>
    have hchoice (s : List (List α)) :
        ((ps.map (· :: s)).map fun s' ↦ (s'.flatten.map f).prod).sum =
          (ps.map fun p ↦ (p.map f).prod).sum * (s.flatten.map f).prod := by
      rw [← List.sum_map_mul_right, List.map_map]
      simp [Function.comp_def]
    rw [List.map_cons, List.prod_cons, ← ih, ← List.sum_map_mul_left, List.sections,
      List.map_flatMap, List.flatMap, List.sum_flatten, List.map_map]
    simp only [Function.comp_def, hchoice]

theorem census_eq (c : Combinator) (t : KernelTree) :
    census c t = (t.products.map fun p ↦ (p.map (weight c)).prod).sum := by
  induction t using OpTree.induction with
  | leaf k => simp [census, products]
  | node c' ts ih =>
    have hmap : ts.map (census c) =
        (ts.map products).map fun ps ↦ (ps.map fun p ↦ (p.map (weight c)).prod).sum := by
      rw [List.map_map]
      exact List.map_congr_left ih
    cases c' with
    | sum =>
      rw [census_sumNode, hmap, products_sumNode, List.map_flatten, List.sum_flatten]
      simp only [List.map_map, Function.comp_def]
    | product =>
      rw [census_productNode, hmap, products_productNode, ← sum_sections, List.map_map]
      rfl
    | changePoint =>
      rw [census_changeNode rfl]
      simp [products]
    | changeWindow =>
      rw [census_changeNode rfl]
      simp [products]

theorem fst_prod_weight (c : Combinator) (p : List Factor) :
    (p.map (weight c)).prod.fst = if Factor.kernel .white ∈ p then 0 else 1 := by
  induction p with
  | nil => rfl
  | cons x p ih =>
    rw [List.map_cons, List.prod_cons, fst_mul, ih]
    cases x with
    | kernel k => by_cases hk : k = .white <;> simp [weight, hk, eq_comm]
    | change c' => simp [fst_weight_change]

theorem snd_prod_weight (c : Combinator) (p : List Factor) :
    (p.map (weight c)).prod.snd = if Factor.kernel .white ∈ p then 0 else p.count (.change c) := by
  induction p with
  | nil => rfl
  | cons x p ih =>
    rw [List.map_cons, List.prod_cons, DualNumber.snd_mul, ih, fst_prod_weight]
    by_cases hp : Factor.kernel .white ∈ p
    · simp [hp]
    · cases x with
      | kernel k => by_cases hk : k = .white <;> simp [weight, hk, hp, eq_comm]
      | change c' => by_cases hc : c' = c <;> simp [weight, hc, hp, Nat.add_comm]

theorem snd_sum_ne_zero_iff {xs : List ℕ[ε]} : xs.sum.snd ≠ 0 ↔ ∃ x ∈ xs, x.snd ≠ 0 := by
  induction xs with
  | nil => simp
  | cons x xs ih =>
    simp only [List.sum_cons, snd_add, List.exists_mem_cons_iff, ← ih]
    omega

theorem snd_census_ne_zero_iff : (census c t).snd ≠ 0 ↔ t.Shows c := by
  rw [census_eq, snd_sum_ne_zero_iff]
  constructor
  · intro h
    obtain ⟨x, hx, hne⟩ := h
    obtain ⟨p, hp, rfl⟩ := List.mem_map.1 hx
    rw [snd_prod_weight] at hne
    split at hne
    · exact absurd rfl hne
    · next hwhite => exact ⟨p, hp, hwhite, List.count_pos_iff.1 (Nat.pos_of_ne_zero hne)⟩
  · intro h
    obtain ⟨p, hp, hwhite, hc⟩ := h
    refine ⟨_, List.mem_map_of_mem hp, ?_⟩
    rw [snd_prod_weight, if_neg hwhite]
    exact Nat.ne_of_gt (List.count_pos_iff.2 hc)

theorem value_changeFactors {R : Type} [CommSemiring R] {f : BaseKernel → R}
    {point window : List R → R} {change : List KernelTree → List KernelTree}
    (hchange : ∀ ts, ((change ts).map (value f point window)).prod =
      (ts.map (value f point window)).prod) (t : KernelTree) :
    value f point window (t.changeFactors change) = value f point window t := by
  induction t using OpTree.induction with
  | leaf k => rfl
  | node c ts ih =>
    have hmap : (ts.map (changeFactors change)).map (value f point window) =
        ts.map (value f point window) := by
      rw [List.map_map]
      exact List.map_congr_left ih
    cases c with
    | sum => rw [changeFactors_sumNode, value_sum, hmap, value_sumNode]
    | product =>
      rw [changeFactors_productNode, value_productOrSingle, hchange, hmap, value_productNode]
    | changePoint => simp only [changeFactors, value, OpTree.fold_node] at hmap ⊢; rw [hmap]
    | changeWindow => simp only [changeFactors, value, OpTree.fold_node] at hmap ⊢; rw [hmap]

theorem prod_census_singleRbf (c : Combinator) (ts : List KernelTree) :
    ((singleRbf ts).map (census c)).prod = (ts.map (census c)).prod := by
  -- An RBF factor has the weight one, so that leaving out all but one of them changes nothing.
  have hrbf : census c (.leaf .rbf) = 1 := rfl
  have hkept : ((ts.filter (· ≠ .leaf .rbf)).map (census c)).prod = (ts.map (census c)).prod := by
    induction ts with
    | nil => rfl
    | cons t ts ih => by_cases ht : t = .leaf .rbf <;> simp_all
  have hone : (((ts.filter (· = .leaf .rbf)).take 1).map (census c)).prod = 1 := by
    apply List.prod_eq_one
    intro x hx
    obtain ⟨t, ht, rfl⟩ := List.mem_map.1 hx
    have ht := (List.mem_filter.1 (List.mem_of_mem_take ht)).2
    rw [of_decide_eq_true ht, hrbf]
  rw [singleRbf, List.map_append, List.prod_append, hkept, hone, mul_one]

theorem prod_census_absorbIntoWhite (c : Combinator) (ts : List KernelTree) :
    ((absorbIntoWhite ts).map (census c)).prod = (ts.map (census c)).prod := by
  -- White noise makes the product zero before and after it takes up other factors.
  have hwhite : census c (.leaf .white) = 0 := rfl
  unfold absorbIntoWhite
  split
  · next h =>
    rw [List.map_cons, List.prod_cons, hwhite, zero_mul]
    exact (List.prod_eq_zero (hwhite ▸ List.mem_map_of_mem h)).symm
  · rfl

theorem census_simplify (c : Combinator) (t : KernelTree) : census c t.simplify = census c t := by
  calc census c t.simplify
      = census c (mergeRbfs t.distribute) := value_changeFactors (prod_census_absorbIntoWhite c) _
    _ = census c t.distribute := value_changeFactors (prod_census_singleRbf c) _
    _ = census c t := value_distribute ..

/-- Simplification leaves the changes that show, and brings no other to light. -/
theorem shows_simplify_iff : t.simplify.Shows c ↔ t.Shows c := by
  rw [← snd_census_ne_zero_iff, census_simplify, snd_census_ne_zero_iff]

end CovarianceSearch.KernelTree
