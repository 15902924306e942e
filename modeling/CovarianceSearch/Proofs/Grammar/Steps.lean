import CovarianceSearch.Proofs.Grammar.Expansion
import CovarianceSearch.Proofs.KernelTree.Idempotence

namespace CovarianceSearch

open KernelTree

/-- Whether one expansion leads from `t` to `s`, be it written down or not. -/
inductive Palette.Steps (p : Palette) : KernelTree → KernelTree → Prop
  | tree {t s : KernelTree} (hs : s ∈ p.treeSteps t) : Steps p t s
  | text {x y : Expression} (hy : y ∈ p.expressionSteps x) : Steps p x.toTree y.toTree

/-- Whether a tree is an operand of `t`, or that of an expression which stands for `t`. -/
inductive KernelTree.HasPart : KernelTree → KernelTree → Prop
  | tree {t s : KernelTree} (hs : s ∈ t.decompose) : HasPart t s
  | text {x o : Expression} (ho : o ∈ x.operands) : HasPart x.toTree o.toTree

theorem Palette.Steps.cases {p : Palette} {t s : KernelTree} (h : p.Steps t s) :
    (∃ k ∈ p.active, s = .leaf k ∨ s = .sum [t, .leaf k] ∨ s = .product [t, .leaf k] ∨
      s = .product [t, .node .sum [.leaf k, .leaf .constant]]) ∨ t.HasPart s := by
  cases h with
  | tree hs => exact (mem_treeSteps hs).imp_right .tree
  | text hy =>
    rcases mem_expressionSteps hy with ⟨k, hk, rfl | rfl | rfl | rfl⟩ | ho
    · exact .inl ⟨k, hk, .inl rfl⟩
    · exact .inl ⟨k, hk, .inr (.inl rfl)⟩
    · exact .inl ⟨k, hk, .inr (.inr (.inl rfl))⟩
    · exact .inl ⟨k, hk, .inr (.inr (.inr rfl))⟩
    · exact .inr (.text ho)

namespace Grammar

variable {g : Grammar} {e : Entry}

/-- The tree that is expanded for an entry: its own, or that of its expression as it was written. -/
def subject? (g : Grammar) (e : Entry) : Option KernelTree :=
  match g.kind with
  | .tree => some e.tree
  | .text => e.expression.bind fun text ↦ (Expression.parse text).toOption.map (·.toTree)

theorem exists_steps_of_expand (hg : g.palette.IsNamed) {cs : List Candidate}
    (h : g.expand e = .ok cs) :
    ∃ t ∈ g.subject? e, ∀ c ∈ cs, g.palette.Steps t c.tree := by
  unfold subject?
  rcases expand_cases hg h with ⟨hkind, rfl⟩ | ⟨hkind, text, x, hexpression, hx, rfl⟩
  · rw [hkind]
    refine ⟨e.tree, rfl, fun c hc ↦ ?_⟩
    obtain ⟨s, hs, rfl⟩ := List.mem_map.1 hc
    exact .tree hs
  · rw [hkind, hexpression]
    refine ⟨x.toTree, by simp [hx, Except.toOption], fun c hc ↦ ?_⟩
    obtain ⟨s, hs, rfl⟩ := List.mem_map.1 hc
    exact .text hs

theorem subject?_seedEntry {k : BaseKernel} (hk : k.IsNamed) :
    g.subject? (g.seedEntry k) = some (.leaf k) := by
  unfold subject? seedEntry seed
  cases g.kind with
  | tree => rfl
  | text =>
    have hparse : Expression.parse k.name = .ok (.kernel k) :=
      (Expression.Printable.kernel hk).of_atom.parse_text
    simp [hparse, Except.toOption, Expression.toTree]

/-- An entry that keeps a candidate is expanded from the tree of the candidate or from the
simplified form of that, which is its own tree. -/
theorem Admits.exists_subject {c : Candidate} (hc : g.Admits c) (hkeeps : e.Keeps c) :
    ∃ t ∈ g.subject? e, e.tree = t.simplify ∧ (t = c.tree ∨ t = c.tree.simplify) := by
  unfold subject?
  cases hkind : g.kind with
  | tree =>
    refine ⟨e.tree, rfl, ?_, .inr hkeeps.tree⟩
    rw [hkeeps.tree, (isSimplified_simplify c.tree).simplify_eq]
  | text =>
    obtain ⟨x, hx, -, hexpression, htree⟩ := hc.written hkind
    refine ⟨x.toTree, ?_, htree ▸ hkeeps.tree, .inl htree.symm⟩
    simp [hkeeps.expression, hexpression, hx.parse_text, Except.toOption]

end Grammar

end CovarianceSearch
