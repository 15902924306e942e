import CovarianceSearch.BaseKernel
import Mathlib.Algebra.BigOperators.Group.List.Basic
import Mathlib.Algebra.Ring.Defs
import Mathlib.Data.Multiset.Bind

namespace CovarianceSearch

/-- A structure multiplied out: a sum of monomials, each of them a product of base kernels. Neither
the order of the terms nor that of their factors counts. -/
@[ext] structure Terms where
  monomials : Multiset (Multiset BaseKernel)

namespace Terms

instance : Zero Terms := ⟨⟨0⟩⟩

instance : One Terms := ⟨⟨{0}⟩⟩

instance : Add Terms := ⟨fun s t ↦ ⟨s.monomials + t.monomials⟩⟩

instance : Mul Terms := ⟨fun s t ↦ ⟨s.monomials.bind fun m ↦ t.monomials.map (m + ·)⟩⟩

def single (m : Multiset BaseKernel) : Terms := ⟨{m}⟩

@[simp] theorem monomials_zero : (0 : Terms).monomials = 0 := rfl

@[simp] theorem monomials_one : (1 : Terms).monomials = {0} := rfl

@[simp] theorem monomials_add (s t : Terms) :
    (s + t).monomials = s.monomials + t.monomials := rfl

@[simp] theorem monomials_mul (s t : Terms) :
    (s * t).monomials = s.monomials.bind fun m ↦ t.monomials.map (m + ·) := rfl

@[simp] theorem monomials_single (m : Multiset BaseKernel) : (single m).monomials = {m} := rfl

theorem mul_comm' (s t : Terms) : s * t = t * s := by
  ext1
  simp only [monomials_mul]
  rw [Multiset.bind_map_comm]
  simp only [add_comm]

theorem one_mul' (s : Terms) : 1 * s = s := by
  ext1
  simp

theorem mul_assoc' (s t u : Terms) : s * t * u = s * (t * u) := by
  ext1
  simp only [monomials_mul, Multiset.bind_assoc, Multiset.bind_map, Multiset.map_bind,
    Multiset.map_map, Function.comp_def, add_assoc]

theorem add_mul' (s t u : Terms) : (s + t) * u = s * u + t * u := by
  ext1
  simp

theorem zero_mul' (s : Terms) : 0 * s = 0 := by
  ext1
  simp

instance : CommSemiring Terms where
  add_assoc s t u := by ext1; simp [add_assoc]
  zero_add s := by ext1; simp
  add_zero s := by ext1; simp
  add_comm s t := by ext1; simp [add_comm]
  nsmul := nsmulRec
  mul_assoc := mul_assoc'
  mul_comm := mul_comm'
  one_mul := one_mul'
  mul_one s := (mul_comm' s 1).trans (one_mul' s)
  left_distrib s t u := by rw [mul_comm', add_mul', mul_comm' t, mul_comm' u]
  right_distrib := add_mul'
  zero_mul := zero_mul'
  mul_zero s := (mul_comm' s 0).trans (zero_mul' s)

theorem single_mul_single (m n : Multiset BaseKernel) : single m * single n = single (m + n) := by
  ext1
  simp

theorem prod_single (ks : List BaseKernel) :
    (ks.map fun k ↦ single {k}).prod = single (ks : Multiset BaseKernel) := by
  induction ks with
  | nil => rfl
  | cons k ks ih =>
    rw [List.map_cons, List.prod_cons, ih, single_mul_single, Multiset.singleton_add,
      Multiset.cons_coe]

theorem monomials_sum_single (ms : List (Multiset BaseKernel)) :
    (ms.map single).sum.monomials = ms := by
  induction ms with
  | nil => rfl
  | cons m ms ih =>
    rw [List.map_cons, List.sum_cons, monomials_add, ih, monomials_single,
      Multiset.singleton_add, Multiset.cons_coe]

end Terms

end CovarianceSearch
