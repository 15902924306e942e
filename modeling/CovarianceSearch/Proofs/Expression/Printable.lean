import CovarianceSearch.Proofs.Expression.Reading
import CovarianceSearch.Proofs.KernelTree.Validity

namespace CovarianceSearch.Expression

/-- The expressions that have a text of their own, phrase by phrase. -/
inductive Printable : Phrase → Expression → Prop
  | kernel {k : BaseKernel} : k.IsNamed → Printable .atom (.kernel k)
  | changePoint {a b : Expression} : Printable .sum a → Printable .sum b →
      Printable .atom (.changePoint a b)
  | changeWindow {a b : Expression} : Printable .sum a → Printable .sum b →
      Printable .atom (.changeWindow a b)
  | item {e : Expression} : Printable .atom e → Printable .item e
  | mul {l r : Expression} : Printable .sum l → Printable .atom r → Printable .item (.mul l r)
  | laxMul {l : Expression} {a b : BaseKernel} : Printable .sum l → a.IsNamed → b.IsNamed →
      (a = .constant ∨ b = .constant) → Printable .item (.laxMul l a b)
  | sum {e : Expression} : Printable .item e → Printable .sum e
  | add {l r : Expression} : Printable .sum l → Printable .atom r → Printable .sum (.add l r)

theorem Printable.of_atom {e : Expression} (h : Printable .atom e) : Printable .sum e :=
  .sum (.item h)

theorem Printable.derives {phrase : Phrase} {e : Expression} (h : Printable phrase e) :
    Derives phrase e.tokens e := by
  induction h with
  | kernel hk => exact .kernel (BaseKernel.ofName?_name hk)
  | changePoint _ _ iha ihb => exact .change rfl iha ihb
  | changeWindow _ _ iha ihb => exact .change rfl iha ihb
  | item _ ih => exact .item ih
  | mul _ _ ihl ihr => exact .mul ihl ihr
  | laxMul _ ha hb hconstant ih =>
    exact .laxMul ih (BaseKernel.ofName?_name ha) (BaseKernel.ofName?_name hb) hconstant
  | sum _ ih => exact .sum ih
  | add _ _ ihl ihr => exact .add ihl ihr

/-- Printing and reading a printable expression gives it back. -/
theorem Printable.parse_text {e : Expression} (h : Printable .sum e) : parse e.text = .ok e :=
  parse_eq_ok e.scans_text h.derives

theorem Printable.terms_of_add {l r : Expression} (h : Printable .sum (.add l r)) :
    Printable .sum l ∧ Printable .atom r := by
  cases h with
  | sum h => cases h with | item h => cases h
  | add hl hr => exact ⟨hl, hr⟩

theorem Printable.factors_of_mul {l r : Expression} (h : Printable .sum (.mul l r)) :
    Printable .sum l ∧ Printable .atom r := by
  cases h with
  | sum h =>
    cases h with
    | item h => cases h
    | mul hl hr => exact ⟨hl, hr⟩

theorem Printable.factors_of_laxMul {l : Expression} {a b : BaseKernel}
    (h : Printable .sum (.laxMul l a b)) : Printable .sum l ∧ a.IsNamed ∧ b.IsNamed := by
  cases h with
  | sum h =>
    cases h with
    | item h => cases h
    | laxMul hl ha hb hconstant => exact ⟨hl, ha, hb⟩

theorem Printable.of_mem_terms {e t : Expression} (h : Printable .sum e) (ht : t ∈ e.terms) :
    Printable .sum t := by
  induction e with
  | add l r ihl ihr =>
    obtain ⟨hl, hr⟩ := h.terms_of_add
    rcases List.mem_append.1 ht with ht | ht
    · exact ihl hl ht
    · rw [List.mem_singleton.1 ht]
      exact hr.of_atom
  | _ => rwa [List.mem_singleton.1 ht]

theorem Printable.of_mem_operands {e t : Expression} (h : Printable .sum e)
    (ht : t ∈ e.operands) : Printable .sum t := by
  cases e with
  | add l r => exact h.of_mem_terms ht
  | mul l r =>
    obtain ⟨hl, hr⟩ := h.factors_of_mul
    obtain rfl | rfl : t = l ∨ t = r := by simpa [operands] using ht
    · exact hl
    · exact hr.of_atom
  | laxMul l a b =>
    obtain ⟨hl, ha, hb⟩ := h.factors_of_laxMul
    obtain rfl | rfl : t = l ∨ t = .add (.kernel a) (.kernel b) := by simpa [operands] using ht
    · exact hl
    · exact .add (Printable.kernel ha).of_atom (.kernel hb)
  | _ => rwa [List.mem_singleton.1 ht]

def IsPlain : Expression → Prop
  | .kernel _ => True
  | .add l r | .mul l r => l.IsPlain ∧ r.IsPlain
  | .laxMul l _ _ => l.IsPlain
  | .changePoint .. | .changeWindow .. => False

theorem IsPlain.of_mem_terms {e t : Expression} (h : e.IsPlain) (ht : t ∈ e.terms) :
    t.IsPlain := by
  induction e with
  | add l r ihl ihr =>
    rcases List.mem_append.1 ht with ht | ht
    · exact ihl h.1 ht
    · rw [List.mem_singleton.1 ht]
      exact h.2
  | _ => rwa [List.mem_singleton.1 ht]

theorem IsPlain.of_mem_operands {e t : Expression} (h : e.IsPlain) (ht : t ∈ e.operands) :
    t.IsPlain := by
  cases e with
  | add l r => exact h.of_mem_terms ht
  | mul l r =>
    obtain rfl | rfl : t = l ∨ t = r := by simpa [operands] using ht
    · exact h.1
    · exact h.2
  | laxMul l a b =>
    obtain rfl | rfl : t = l ∨ t = .add (.kernel a) (.kernel b) := by simpa [operands] using ht
    · exact h
    · exact ⟨trivial, trivial⟩
  | _ => rwa [List.mem_singleton.1 ht]

theorem IsPlain.isValid_toTree {e : Expression} (h : e.IsPlain) : e.toTree.IsValid := by
  induction e with
  | kernel k => exact KernelTree.isValid_leaf k
  | add l r ihl ihr =>
    exact KernelTree.isValid_sum (by simp) (by simpa using ⟨ihl h.1, ihr h.2⟩)
  | mul l r ihl ihr =>
    exact KernelTree.isValid_product (by simp) (by simpa using ⟨ihl h.1, ihr h.2⟩)
  | laxMul l a b ihl =>
    have hsum : KernelTree.IsValid (.node .sum [.leaf a, .leaf b]) :=
      KernelTree.isValid_sumNode (by simp) (by simp [KernelTree.isValid_leaf])
    exact KernelTree.isValid_product (by simp) (by simpa using ⟨ihl h, hsum⟩)
  | changePoint a b => exact h.elim
  | changeWindow a b => exact h.elim

end CovarianceSearch.Expression
