import CovarianceSearch.Proofs.Grammar
import CovarianceSearch.Proofs.KernelTree.Position

namespace CovarianceSearch

namespace KernelTree

variable {ts us : List KernelTree}

theorem map_text_simplify_congr (h : List.Forall₂ Alike ts us) :
    ts.map (·.simplify.text) = us.map (·.simplify.text) := by
  induction h with
  | nil => rfl
  | cons hab _ ih => rw [List.map_cons, List.map_cons, hab.text_simplify, ih]

theorem exists_keys (h : ∀ t ∈ ts, t.IsValid) :
    ∃ keys : List String, ts.map (·.simplify.text) = keys.map .ok := by
  refine ⟨ts.map (·.terms.reduce.text), ?_⟩
  rw [List.map_map]
  exact List.map_congr_left fun t ht ↦ (h t ht).text_simplify

theorem alike_pair {c : Combinator} (hc : c = .sum ∨ c = .product) {t t' u u' : KernelTree}
    (ht : Alike t t') (hu : Alike u u') : Alike (combine c [t, u]) (combine c [t', u']) := by
  have hoperands : List.Forall₂ Alike [t, u] [t', u'] := .cons ht (.cons hu .nil)
  exact alike_combine hc (by simp) hoperands

end KernelTree

open KernelTree

namespace Palette

variable {p : Palette} {t u : KernelTree}

/-- The steps that draw on the active base kernels: these themselves, and the variants of `t` by
them. -/
def grown (p : Palette) (t : KernelTree) : List KernelTree :=
  p.active.map .leaf ++ p.active.flatMap (p.treeVariants t)

theorem treeSteps_eq (p : Palette) (t : KernelTree) : p.treeSteps t = p.grown t ++ t.decompose :=
  rfl

theorem treeVariants_alike (h : Alike t u) (k : BaseKernel) :
    List.Forall₂ Alike (p.treeVariants t k) (p.treeVariants u k) := by
  have hleaf : Alike (.leaf k) (.leaf k) := (isValid_leaf k).alike
  have hsum : Alike (.sum [t, .leaf k]) (.sum [u, .leaf k]) := alike_pair (.inl rfl) h hleaf
  have hproduct : Alike (.product [t, .leaf k]) (.product [u, .leaf k]) :=
    alike_pair (.inr rfl) h hleaf
  unfold treeVariants
  split
  · have hfactor : IsValid (.node .sum [.leaf k, .leaf .constant]) :=
      isValid_sumNode (by simp) (by simp [isValid_leaf])
    have hlax := alike_pair (.inr rfl) h hfactor.alike
    exact .cons hsum (.cons hproduct (.cons hlax .nil))
  · exact .cons hsum (.cons hproduct .nil)

theorem grown_alike (h : Alike t u) : List.Forall₂ Alike (p.grown t) (p.grown u) := by
  apply List.rel_append
  · refine List.forall₂_same.2 fun s hs ↦ ?_
    obtain ⟨k, -, rfl⟩ := List.mem_map.1 hs
    exact (isValid_leaf k).alike
  · have hactive : List.Forall₂ (· = ·) p.active p.active := List.forall₂_same.2 fun _ _ ↦ rfl
    refine List.rel_flatMap hactive ?_
    rintro k _ rfl
    exact treeVariants_alike h k

theorem expandTree_eq_grown (ht : t.IsValid) :
    p.expandTree t = .ok (p.grown t ++ t.decompose) := by
  rw [expandTree_eq ht, treeSteps_eq]

theorem isValid_of_mem_grown (ht : t.IsValid) {s : KernelTree} (hs : s ∈ p.grown t) :
    s.IsValid :=
  isValid_of_mem_treeSteps ht (List.mem_append_left _ hs)

/-- A tree and its simplified form grow to the same keys, step by step. -/
theorem exists_keys_grown (p : Palette) (ht : t.IsValid) :
    ∃ keys : List String, (p.grown t).map (·.simplify.text) = keys.map .ok ∧
      (p.grown t.simplify).map (·.simplify.text) = keys.map .ok := by
  obtain ⟨keys, hkeys⟩ := exists_keys fun s hs ↦ isValid_of_mem_grown (p := p) ht hs
  have hcongr := map_text_simplify_congr (grown_alike (p := p) ht.simplify_alike)
  exact ⟨keys, hkeys, hcongr.trans hkeys⟩

end Palette

namespace KernelTree

/-- A key does not change when a subtree is simplified where it stands, nor when an operand of a
sum or product is simplified before it is taken in. -/
theorem key_replaceAt_simplify {t : KernelTree} (ht : t.validate = .ok ()) :
    (∃ key, t.simplify.text = .ok key ∧ ∀ path (s : KernelTree),
      OpTree.subtree? path t = some s →
        (simplify (OpTree.replaceAt s.simplify path t)).text = .ok key) ∧
    (∀ u : KernelTree, u.validate = .ok () →
      (∃ key, (sum [t, u]).simplify.text = .ok key ∧
        (sum [t.simplify, u]).simplify.text = .ok key) ∧
      ∃ key, (product [t, u]).simplify.text = .ok key ∧
        (product [t.simplify, u]).simplify.text = .ok key) ∧
    ∀ p : Palette, ∃ keys : List String,
      p.expandTree t = .ok (p.grown t ++ t.decompose) ∧
      p.expandTree t.simplify = .ok (p.grown t.simplify ++ t.simplify.decompose) ∧
      (p.grown t).map (·.simplify.text) = keys.map .ok ∧
      (p.grown t.simplify).map (·.simplify.text) = keys.map .ok := by
  have ht : IsValid t := ht
  have hsimplify := ht.simplify_alike
  refine ⟨⟨_, ht.text_simplify, fun path s hs ↦ ?_⟩, fun u hu ↦ ?_, fun p ↦ ?_⟩
  · have hs' := (ht.of_subtree? hs).simplify_alike
    rw [(ht.replaceAt_alike hs hs').text_simplify, ht.text_simplify]
  · have hu : IsValid u := hu
    have hsum : Alike (sum [t.simplify, u]) (sum [t, u]) :=
      alike_pair (.inl rfl) hsimplify hu.alike
    have hproduct : Alike (product [t.simplify, u]) (product [t, u]) :=
      alike_pair (.inr rfl) hsimplify hu.alike
    have hkey := hsum.right.text_simplify
    have hkey' := hproduct.right.text_simplify
    exact ⟨⟨_, hkey, hsum.text_simplify.trans hkey⟩, _, hkey', hproduct.text_simplify.trans hkey'⟩
  · obtain ⟨keys, hkeys, hkeys'⟩ := p.exists_keys_grown ht
    exact ⟨keys, Palette.expandTree_eq_grown ht, Palette.expandTree_eq_grown ht.isValid_simplify,
      hkeys, hkeys'⟩

def noisyProduct : KernelTree :=
  .node .product [.node .sum [.node .product [.leaf .white, .leaf .rbf], .leaf .rbf], .leaf .rbf]

theorem key_replaceAt_simplify_noisyProduct :
    validate noisyProduct = .ok () ∧
      OpTree.subtree? [0, 0] noisyProduct = some (.node .product [.leaf .white, .leaf .rbf]) ∧
      validate (.leaf .periodic) = .ok () ∧
      (∃ key, noisyProduct.simplify.text = .ok key ∧
        (simplify (OpTree.replaceAt (simplify (.node .product [.leaf .white, .leaf .rbf])) [0, 0]
          noisyProduct)).text = .ok key) ∧
      ∃ key, (product [noisyProduct, .leaf .periodic]).simplify.text = .ok key ∧
        (product [noisyProduct.simplify, .leaf .periodic]).simplify.text = .ok key := by
  obtain ⟨⟨key, hkey, hreplaced⟩, hcombined, -⟩ := key_replaceAt_simplify (t := noisyProduct) rfl
  have hperiodic : validate (.leaf .periodic) = .ok () := rfl
  exact ⟨rfl, rfl, hperiodic, ⟨key, hkey, hreplaced [0, 0] _ rfl⟩, (hcombined _ hperiodic).2⟩

/-- The operands of a product of sums are not those of the sum of products that it is simplified
to, so the two do not expand to the same keys. -/
theorem parts_of_simplify_differ :
    ¬ ∀ (p : Palette) (t : KernelTree), t.validate = .ok () →
      ∀ steps steps', p.expandTree t = .ok steps → p.expandTree t.simplify = .ok steps' →
        ∀ key, key ∈ steps.map (·.simplify.text) ↔ key ∈ steps'.map (·.simplify.text) := by
  intro h
  have hkey := h ⟨[.constant], [], true⟩
    (.node .product [.node .sum [.leaf .linear, .leaf .rbf], .leaf .periodic]) rfl _ _ rfl rfl
    (.ok "linear + rbf")
  revert hkey
  decide

end KernelTree

end CovarianceSearch
