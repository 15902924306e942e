import CovarianceSearch.Grammar
import CovarianceSearch.Proofs.Expression.Printable

namespace CovarianceSearch

namespace Palette

variable (p : Palette)

def IsNamed : Prop := ∀ k ∈ p.baseKernels, k.IsNamed

def expressionVariants (e : Expression) (k : BaseKernel) : List Expression :=
  let grown := [.add e (.kernel k), .mul e (.kernel k)]
  if k ∈ p.lax then grown ++ [.laxMul e k .constant] else grown

def expressionSteps (e : Expression) : List Expression :=
  p.active.map .kernel ++ p.active.flatMap (p.expressionVariants e) ++ e.operands

variable {p}

theorem IsNamed.of_mem_active (hp : p.IsNamed) {k : BaseKernel} (hk : k ∈ p.active) :
    k.IsNamed :=
  hp k (List.mem_of_mem_filter hk)

theorem expandTree_eq {t : KernelTree} (h : t.IsValid) : p.expandTree t = .ok (p.treeSteps t) := by
  have h : t.validate = .ok () := h
  rw [expandTree, h]

theorem mem_treeSteps {s t : KernelTree} (hs : s ∈ p.treeSteps t) :
    (∃ k ∈ p.active, s = .leaf k ∨ s = .sum [t, .leaf k] ∨ s = .product [t, .leaf k] ∨
      s = .product [t, .node .sum [.leaf k, .leaf .constant]]) ∨ s ∈ t.decompose := by
  rcases List.mem_append.1 hs with hs | hs
  · rcases List.mem_append.1 hs with hs | hs
    · obtain ⟨k, hk, rfl⟩ := List.mem_map.1 hs
      exact .inl ⟨k, hk, .inl rfl⟩
    · obtain ⟨k, hk, hs⟩ := List.mem_flatMap.1 hs
      refine .inl ⟨k, hk, .inr ?_⟩
      unfold treeVariants at hs
      split at hs
      · simpa using hs
      · obtain hs | hs : s = _ ∨ s = _ := by simpa using hs
        · exact .inl hs
        · exact .inr (.inl hs)
  · exact .inr hs

theorem isValid_of_mem_treeSteps {s t : KernelTree} (h : t.IsValid) (hs : s ∈ p.treeSteps t) :
    s.IsValid := by
  rcases mem_treeSteps hs with ⟨k, -, rfl | rfl | rfl | rfl⟩ | hs
  · exact KernelTree.isValid_leaf k
  · exact KernelTree.isValid_sum (by simp) (by simpa using ⟨h, KernelTree.isValid_leaf k⟩)
  · exact KernelTree.isValid_product (by simp) (by simpa using ⟨h, KernelTree.isValid_leaf k⟩)
  · have hfactor : KernelTree.IsValid (.node .sum [.leaf k, .leaf .constant]) :=
      KernelTree.isValid_sumNode (by simp) (by simp [KernelTree.isValid_leaf])
    exact KernelTree.isValid_product (by simp) (by simpa using ⟨h, hfactor⟩)
  · exact h.of_mem_decompose hs

theorem textVariants_eq (e : Expression) (k : BaseKernel) :
    p.textVariants e.text k = (p.expressionVariants e k).map Expression.text := by
  unfold textVariants expressionVariants
  split <;> rfl

theorem textSteps_eq (e : Expression) :
    p.textSteps e = (p.expressionSteps e).map Expression.text := by
  have hvariants : p.active.flatMap (p.textVariants e.text) =
      (p.active.flatMap (p.expressionVariants e)).map Expression.text := by
    rw [List.map_flatMap]
    exact List.flatMap_congr fun k _ ↦ textVariants_eq e k
  rw [textSteps, expressionSteps, List.map_append, List.map_append, hvariants, List.map_map]
  rfl

section

variable {e s : Expression}

theorem mem_expressionSteps (hs : s ∈ p.expressionSteps e) :
    (∃ k ∈ p.active, s = .kernel k ∨ s = .add e (.kernel k) ∨ s = .mul e (.kernel k) ∨
      s = .laxMul e k .constant) ∨ s ∈ e.operands := by
  rcases List.mem_append.1 hs with hs | hs
  · rcases List.mem_append.1 hs with hs | hs
    · obtain ⟨k, hk, rfl⟩ := List.mem_map.1 hs
      exact .inl ⟨k, hk, .inl rfl⟩
    · obtain ⟨k, hk, hs⟩ := List.mem_flatMap.1 hs
      refine .inl ⟨k, hk, .inr ?_⟩
      unfold expressionVariants at hs
      split at hs
      · simpa using hs
      · obtain hs | hs : s = _ ∨ s = _ := by simpa using hs
        · exact .inl hs
        · exact .inr (.inl hs)
  · exact .inr hs

theorem printable_of_mem_expressionSteps (hp : p.IsNamed) (he : e.Printable .sum)
    (hs : s ∈ p.expressionSteps e) : s.Printable .sum := by
  rcases mem_expressionSteps hs with ⟨k, hk, hs⟩ | hs
  · have hk := hp.of_mem_active hk
    rcases hs with rfl | rfl | rfl | rfl
    · exact (Expression.Printable.kernel hk).of_atom
    · exact .add he (.kernel hk)
    · exact .sum (.mul he (.kernel hk))
    · exact .sum (.laxMul he hk trivial (.inr rfl))
  · exact he.of_mem_operands hs

theorem isPlain_of_mem_expressionSteps (he : e.IsPlain) (hs : s ∈ p.expressionSteps e) :
    s.IsPlain := by
  rcases mem_expressionSteps hs with ⟨k, -, rfl | rfl | rfl | rfl⟩ | hs
  · trivial
  · exact ⟨he, trivial⟩
  · exact ⟨he, trivial⟩
  · exact he
  · exact he.of_mem_operands hs

theorem reread_text (he : e.Printable .sum) : reread e.text = .ok e := by
  rw [reread, he.parse_text]

theorem extendText_text (hp : p.IsNamed) (he : e.Printable .sum) :
    p.extendText e.text = .ok ((p.expressionSteps e).map Expression.text) := by
  -- Every text is read once more before it is handed out.
  have hreread : (p.textSteps e).mapM reread = .ok (p.expressionSteps e) := by
    rw [textSteps_eq]
    refine Outcome.mapM_eq_ok_iff.2 (List.forall₂_map_left_iff.2 (List.forall₂_same.2 ?_))
    exact fun s hs ↦ reread_text (printable_of_mem_expressionSteps hp he hs)
  rw [extendText, he.parse_text, ← textSteps_eq]
  exact Outcome.bind_eq_ok_iff.2 ⟨e, rfl, Outcome.bind_eq_ok_iff.2 ⟨_, hreread, rfl⟩⟩

end

end Palette

def Candidate.IsWritten (c : Candidate) : Prop :=
  ∃ e : Expression, e.Printable .sum ∧ e.IsPlain ∧ c.expression = some e.text ∧ c.tree = e.toTree

namespace Grammar

variable {g : Grammar}

/-- What a search may come across: trees of sums and products which, where structures are expanded
as expressions, are written down. -/
structure Admits (g : Grammar) (c : Candidate) : Prop where
  valid : c.tree.IsValid
  written : g.kind = .text → c.IsWritten

theorem admits_of_isPlain {e : Expression} (he : e.Printable .sum) (hplain : e.IsPlain) :
    g.Admits ⟨e.toTree, some e.text⟩ :=
  ⟨hplain.isValid_toTree, fun _ ↦ ⟨e, he, hplain, rfl, rfl⟩⟩

theorem admits_seed {k : BaseKernel} (hk : k.IsNamed) : g.Admits (g.seed k) := by
  unfold seed
  split
  · next h => exact ⟨KernelTree.isValid_leaf k, fun h' ↦ by rw [h] at h'; cases h'⟩
  · exact admits_of_isPlain (Expression.Printable.kernel hk).of_atom trivial

theorem seed_tree (k : BaseKernel) : (g.seed k).tree = .leaf k := by
  unfold seed
  split <;> rfl

theorem expandTree_eq {t : KernelTree} (h : t.IsValid) :
    g.expandTree t = .ok ((g.palette.treeSteps t).map (⟨·, none⟩)) := by
  rw [expandTree, Palette.expandTree_eq h]
  rfl

/-- A text is expanded to the texts of the expressions one step away and the trees that these stand
for. -/
theorem expandText_text (hg : g.palette.IsNamed) {e : Expression} (he : e.Printable .sum) :
    g.expandText e.text =
      .ok ((g.palette.expressionSteps e).map fun s ↦ ⟨s.toTree, some s.text⟩) := by
  rw [expandText, Palette.extendText_text hg he]
  refine Outcome.mapM_eq_ok_iff.2 (List.forall₂_map_left_iff.2 (List.forall₂_map_right_iff.2 ?_))
  refine List.forall₂_same.2 fun s hs ↦ Outcome.bind_eq_ok_iff.2 ⟨s, ?_, rfl⟩
  rw [(Palette.printable_of_mem_expressionSteps hg he hs).parse_text]
  rfl

theorem exists_expandText (hg : g.palette.IsNamed) {e : Expression} (he : e.Printable .sum)
    (hplain : e.IsPlain) : ∃ cs, g.expandText e.text = .ok cs ∧ ∀ c ∈ cs, g.Admits c := by
  refine ⟨_, expandText_text hg he, fun c hc ↦ ?_⟩
  obtain ⟨s, hs, rfl⟩ := List.mem_map.1 hc
  exact admits_of_isPlain (Palette.printable_of_mem_expressionSteps hg he hs)
    (Palette.isPlain_of_mem_expressionSteps hplain hs)

theorem exists_expandTree (hkind : g.kind = .tree) {t : KernelTree} (h : t.IsValid) :
    ∃ cs, g.expandTree t = .ok cs ∧ ∀ c ∈ cs, g.Admits c := by
  refine ⟨_, expandTree_eq h, fun c hc ↦ ?_⟩
  obtain ⟨s, hs, rfl⟩ := List.mem_map.1 hc
  exact ⟨Palette.isValid_of_mem_treeSteps h hs, fun h' ↦ by rw [hkind] at h'; cases h'⟩

theorem exists_expand (hg : g.palette.IsNamed) {c : Candidate} (hc : g.Admits c) {e : Entry}
    (htree : e.tree.IsValid) (hexpression : e.expression = c.expression) :
    ∃ cs, g.expand e = .ok cs ∧ ∀ c ∈ cs, g.Admits c := by
  unfold expand
  rw [hexpression]
  cases hkind : g.kind with
  | tree => exact exists_expandTree hkind htree
  | text =>
    obtain ⟨s, hs, hplain, he, -⟩ := hc.written hkind
    rw [he]
    exact exists_expandText hg hs hplain

def seedEntry (g : Grammar) (k : BaseKernel) : Entry :=
  { Entry.unscored k.name (.leaf k) 0 with expression := (g.seed k).expression }

theorem exists_expand_seedEntry (hg : g.palette.IsNamed) {k : BaseKernel} (hk : k.IsNamed) :
    ∃ cs, g.expand (g.seedEntry k) = .ok cs ∧ ∀ c ∈ cs, g.Admits c :=
  exists_expand hg (admits_seed hk) (KernelTree.isValid_leaf k) rfl

theorem expandBaseKernels_eq (g : Grammar) :
    g.expandBaseKernels =
      List.flatten <$> g.palette.active.mapM fun k ↦ g.expand (g.seedEntry k) := by
  have hexpand (k : BaseKernel) : g.expand (g.seedEntry k) =
      g.kind.casesOn (g.expandTree (.leaf k)) (g.expandText k.name) := by
    simp only [expand, seedEntry, seed, Entry.unscored]
    cases g.kind <;> rfl
  simp only [hexpand]
  cases h : g.kind <;> simp only [expandBaseKernels, h] <;> rfl

theorem expandBaseKernels_eq_ok_iff {cs : List Candidate} :
    g.expandBaseKernels = .ok cs ↔ ∃ steps, cs = steps.flatten ∧
      List.Forall₂ (fun k step ↦ g.expand (g.seedEntry k) = .ok step) g.palette.active steps := by
  rw [expandBaseKernels_eq, map_eq_pure_bind, Outcome.bind_eq_ok_iff]
  constructor
  · rintro ⟨steps, h, he⟩
    cases he
    exact ⟨steps, rfl, Outcome.mapM_eq_ok_iff.1 h⟩
  · rintro ⟨steps, rfl, h⟩
    exact ⟨steps, Outcome.mapM_eq_ok_iff.2 h, rfl⟩

theorem exists_expandBaseKernels (hg : g.palette.IsNamed) :
    ∃ cs, g.expandBaseKernels = .ok cs ∧ ∀ c ∈ cs, g.Admits c := by
  have hexpand : ∀ k ∈ g.palette.active, ∃ cs, g.expand (g.seedEntry k) = .ok cs ∧
      ∀ c ∈ cs, g.Admits c := fun k hk ↦ exists_expand_seedEntry hg (hg.of_mem_active hk)
  obtain ⟨steps, hsteps, hadmits⟩ := Outcome.exists_mapM_and_forall_flatten hexpand
  have hsteps := Outcome.mapM_eq_ok_iff.1 hsteps
  exact ⟨_, expandBaseKernels_eq_ok_iff.2 ⟨steps, rfl, hsteps⟩, hadmits⟩

end Grammar

end CovarianceSearch
