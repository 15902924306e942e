import CovarianceSearch.Proofs.Expression.Derivation
import CovarianceSearch.Proofs.Grammar.Congruence

namespace CovarianceSearch

open KernelTree

namespace Expression

def isProduct : Expression → Bool
  | .mul .. | .laxMul .. => true
  | _ => false

theorem Printable.exists_eq_kernel {e : Expression} (h : Printable .atom e) (hplain : e.IsPlain) :
    ∃ k, e = .kernel k := by
  cases h with
  | kernel => exact ⟨_, rfl⟩
  | changePoint => exact hplain.elim
  | changeWindow => exact hplain.elim

theorem toTree_add_kernel (l : Expression) (k : BaseKernel) :
    (Expression.add l (.kernel k)).toTree =
      .node .sum (operandsFor .sum l.toTree ++ [.leaf k]) := by
  rfl

/-- The terms of a chain of sums are the operands of the sum that it stands for. -/
theorem Printable.map_toTree_terms {e : Expression} (h : Printable .sum e) (hplain : e.IsPlain) :
    e.terms.map toTree = operandsFor .sum e.toTree := by
  induction e with
  | kernel k => rfl
  | add l r ihl ihr =>
    obtain ⟨hl, hr⟩ := h.terms_of_add
    obtain ⟨k, rfl⟩ := hr.exists_eq_kernel hplain.2
    rw [terms, List.map_append, ihl hl hplain.1, toTree_add_kernel]
    rfl
  | mul l r => rfl
  | laxMul l a b => rfl
  | changePoint a b => exact hplain.elim
  | changeWindow a b => exact hplain.elim

/-- The trees that an operand brings in: its factors if it is a product under a product, itself
otherwise. -/
def partsOf (e o : Expression) : List KernelTree :=
  if e.isProduct then operandsFor .product o.toTree else [o.toTree]

theorem flatMap_partsOf_add (l r : Expression) :
    (Expression.add l r).operands.flatMap (partsOf (.add l r)) =
      (Expression.add l r).operands.map toTree := by
  rw [List.map_eq_flatMap]
  rfl

/-- The tree of an expression decomposes to what its operands bring in. -/
theorem Printable.decompose_toTree {e : Expression} (h : Printable .sum e) (hplain : e.IsPlain) :
    e.toTree.decompose = e.operands.flatMap e.partsOf := by
  cases e with
  | kernel k => rfl
  | add l r =>
    obtain ⟨k, rfl⟩ := h.terms_of_add.2.exists_eq_kernel hplain.2
    have hterms := h.map_toTree_terms hplain
    rw [flatMap_partsOf_add]
    rw [toTree_add_kernel] at hterms ⊢
    exact hterms.symm
  | mul l r => rfl
  | laxMul l a b => rfl
  | changePoint a b => exact hplain.elim
  | changeWindow a b => exact hplain.elim

end Expression

namespace Palette

variable {p : Palette} {e : Expression}

theorem map_toTree_expressionVariants (e : Expression) (k : BaseKernel) :
    (p.expressionVariants e k).map Expression.toTree = p.treeVariants e.toTree k := by
  unfold expressionVariants treeVariants
  split <;> rfl

/-- Both grammars grow the same trees. -/
theorem map_toTree_expressionSteps (e : Expression) :
    (p.expressionSteps e).map Expression.toTree =
      p.grown e.toTree ++ e.operands.map Expression.toTree := by
  have hvariants : (p.active.flatMap (p.expressionVariants e)).map Expression.toTree =
      p.active.flatMap (p.treeVariants e.toTree) := by
    rw [List.map_flatMap]
    exact List.flatMap_congr fun k _ ↦ map_toTree_expressionVariants e k
  rw [expressionSteps, List.map_append, List.map_append, hvariants, List.map_map]
  rfl

theorem extendText_of_parse {text : String} (hp : p.IsNamed) (he : Expression.parse text = .ok e) :
    p.extendText text = .ok ((p.expressionSteps e).map Expression.text) := by
  have hprintable := Expression.printable_of_parse he
  rw [← extendText_text hp hprintable, extendText, extendText, he, hprintable.parse_text]

/-- What a text is extended to stands for the trees that its expression grows to, one by one, and
then for its operands. The tree of the expression has the same steps, except that it decomposes to
what these operands bring in, and its simplified form grows to the same keys. -/
theorem text_and_tree_steps_agree (hp : p.IsNamed) {text : String}
    (he : Expression.parse text = .ok e) (hplain : e.IsPlain) :
    ∃ (written : List String) (read : List Expression) (keys : List String),
      p.extendText text = .ok written ∧
      List.Forall₂ (fun s x ↦ Expression.parse s = .ok x) written read ∧
      read.map Expression.toTree = p.grown e.toTree ++ e.operands.map Expression.toTree ∧
      p.expandTree e.toTree = .ok (p.grown e.toTree ++ e.operands.flatMap fun o ↦
        if e.isProduct then operandsFor .product o.toTree else [o.toTree]) ∧
      p.expandTree e.toTree.simplify =
        .ok (p.grown e.toTree.simplify ++ e.toTree.simplify.decompose) ∧
      (p.grown e.toTree).map (·.simplify.text) = keys.map .ok ∧
      (p.grown e.toTree.simplify).map (·.simplify.text) = keys.map .ok := by
  have hprintable := Expression.printable_of_parse he
  have hvalid : IsValid e.toTree := hplain.isValid_toTree
  obtain ⟨keys, hkeys, hkeys'⟩ := p.exists_keys_grown hvalid
  refine ⟨_, p.expressionSteps e, keys, extendText_of_parse hp he, ?_,
    map_toTree_expressionSteps e, ?_, expandTree_eq_grown hvalid.isValid_simplify, hkeys, hkeys'⟩
  · apply List.forall₂_map_left_iff.2
    apply List.forall₂_same.2
    intro s hs
    exact (printable_of_mem_expressionSteps hp hprintable hs).parse_text
  · rw [expandTree_eq_grown hvalid, hprintable.decompose_toTree hplain]
    rfl

def laxChain : Expression :=
  .laxMul (.add (.mul (.kernel .rbf) (.kernel .linear)) (.kernel .white)) .periodic .constant

theorem text_and_tree_steps_agree_laxChain :
    standard.IsNamed ∧
      Expression.parse "((rbf)*linear+white)*(periodic + constant)" = .ok laxChain ∧
      laxChain.IsPlain ∧
      ∃ written read, standard.extendText "((rbf)*linear+white)*(periodic + constant)" =
          .ok written ∧
        List.Forall₂ (fun s x ↦ Expression.parse s = .ok x) written read ∧
        read.map Expression.toTree =
          standard.grown laxChain.toTree ++ laxChain.operands.map Expression.toTree ∧
        standard.expandTree laxChain.toTree =
          .ok (standard.grown laxChain.toTree ++ laxChain.operands.map Expression.toTree) := by
  have hnamed : standard.IsNamed := by
    intro k hk
    fin_cases hk <;> trivial
  have hparse : Expression.parse "((rbf)*linear+white)*(periodic + constant)" = .ok laxChain := by
    cbv
  have hplain : laxChain.IsPlain := ⟨⟨trivial, trivial⟩, trivial⟩
  obtain ⟨written, read, -, hwritten, hread, htrees, hsteps, -⟩ :=
    text_and_tree_steps_agree hnamed hparse hplain
  exact ⟨hnamed, hparse, hplain, written, read, hwritten, hread, htrees, hsteps⟩

end Palette

end CovarianceSearch
