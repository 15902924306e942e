import CovarianceSearch.Proofs.Grammar.Restriction
import CovarianceSearch.Proofs.Search.Subjects
import CovarianceSearch.Proofs.Search.Success

namespace CovarianceSearch.Search

variable {M : Type} {search : Search M} {depth : Nat}

def allowed (search : Search M) : Set BaseKernel :=
  insert search.start search.grammar.palette.inserted

/-- Whether what an entry is expanded from, and so its tree, has leaves of a search only. -/
def Restricts (search : Search M) (e : Entry) : Prop :=
  ∃ t ∈ search.grammar.subject? e, e.tree = t.simplify ∧ t.UsesOnly search.allowed

theorem Restricts.usesOnly {e : Entry} (h : search.Restricts e) :
    e.tree.UsesOnly search.allowed := by
  obtain ⟨t, -, htree, ht⟩ := h
  rw [htree]
  exact ht.simplify

theorem isInvariant_usesOnly : search.IsInvariant fun _ t ↦ t.UsesOnly search.allowed where
  seed _ hk := KernelTree.usesOnly_leaf_iff.2 (hk.imp_right .inl)
  mono _ ht := ht
  simplify _ ht := ht.simplify
  step _ ht hstep := hstep.usesOnly (Set.subset_insert _ _) ht

variable [Model M] {xs ys : List Float} {cancelled : Nat → Bool} {deviates : Nat → Deviates}
  {batches : List (List KernelTree)} {s : State}

theorem Reaches.restricts (hnamed : search.IsNamed)
    (h : search.Reaches xs ys cancelled deviates depth batches s) :
    ∀ e ∈ s.table.entries, search.Restricts e := by
  intro e he
  obtain ⟨t, hsubject, htree, -, ht⟩ := h.descends isInvariant_usesOnly hnamed e he
  exact ⟨t, hsubject, htree, ht⟩

/-- All leaves in the table of a search are the starting kernel, active kernels, or the constant of
the lax products. An expansion uses active kernels, that constant, and what it expands. -/
theorem reaches_restricted {config : Config} {backend : Backend M} {metric : Metric M}
    (hcreate : create config backend metric = .ok search) (xs ys : List Float)
    (cancelled : Nat → Bool) (deviates : Nat → Deviates) :
    (∀ depth batches s, search.Reaches xs ys cancelled deviates depth batches s →
      ∀ e ∈ s.table.entries, ∀ k ∈ e.tree.labels, k = search.start ∨
        k ∈ search.grammar.palette.active ∨ k = .constant ∧ search.grammar.palette.lax ≠ []) ∧
    (∀ r, search.run xs ys cancelled deviates = .ok r →
      ∀ e ∈ r.final.table.entries, ∀ k ∈ e.tree.labels, k = search.start ∨
        k ∈ search.grammar.palette.active ∨ k = .constant ∧ search.grammar.palette.lax ≠ []) ∧
    ∀ e cs, search.grammar.expand e = .ok cs → ∃ t ∈ search.grammar.subject? e,
      ∀ c ∈ cs, ∀ k ∈ c.tree.labels, k ∈ t.labels ∨
        k ∈ search.grammar.palette.active ∨ k = .constant ∧ search.grammar.palette.lax ≠ [] := by
  obtain ⟨hnamed, -⟩ := create_eq_ok hcreate
  have hreaches (depth batches s)
      (hs : search.Reaches xs ys cancelled deviates depth batches s) :
      ∀ e ∈ s.table.entries, e.tree.UsesOnly search.allowed :=
    fun e he ↦ (hs.restricts hnamed e he).usesOnly
  refine ⟨hreaches, fun r hr ↦ ?_, fun e cs hcs ↦ ?_⟩
  · obtain ⟨depth, batches, s, hs, htable⟩ := exists_reaches_of_run hr
    rw [htable]
    exact hreaches depth batches s hs
  · obtain ⟨t, hsubject, hexpand⟩ := Grammar.exists_subject_of_expand hnamed.palette hcs
    refine ⟨t, hsubject, hexpand ({k | k ∈ t.labels} ∪ search.grammar.palette.inserted) ?_ ?_⟩
    · exact Set.subset_union_right
    · exact fun k hk ↦ .inl hk

theorem smallSearch_restricted :
    create (smallConfig .text 1) smallBackend smallMetric = .ok (smallSearch .text 1) ∧
      (smallSearch .text 1).grammar.palette.active = [.linear, .rbf] ∧
      ∃ r, (smallSearch .text 1).run [0.0, 1.0] [0.0, 1.0] (fun _ ↦ false)
          (fun _ _ _ ↦ 0.0) = .ok r ∧
        ∀ e ∈ r.final.table.entries, ∀ k ∈ e.tree.labels,
          k = .white ∨ k ∈ [.linear, .rbf] ∨ k = .constant ∧
            (smallSearch .text 1).grammar.palette.lax ≠ [] := by
  have hcreate := create_smallConfig .text 1
  obtain ⟨-, hrun, -⟩ := reaches_restricted hcreate [0.0, 1.0] [0.0, 1.0] (fun _ ↦ false)
    fun _ _ _ ↦ 0.0
  obtain ⟨r, hr⟩ := exists_run_smallSearch .text 1 (by decide) (fun _ ↦ false) fun _ _ _ ↦ 0.0
  exact ⟨hcreate, by decide, r, hr, hrun r hr⟩

def linearConfig : Config where
  search := { searchDepth := 1, startKernel := "linear" }
  grammar := { baseKernels := ["linear"] }
  evaluation := { jitter := false }

def linearSearch : Search GaussianProcess where
  config := linearConfig.search
  grammar := ⟨.tree, ⟨[.linear], [], true⟩⟩
  evaluator := ⟨smallBackend, smallMetric, none⟩
  start := .linear

theorem linearSearch_finds_constant :
    create linearConfig smallBackend smallMetric = .ok linearSearch ∧
      ∃ r, linearSearch.run [0.0, 1.0] [0.0, 1.0] (fun _ ↦ false) (fun _ _ _ ↦ 0.0) = .ok r ∧
        ¬ ∀ e ∈ r.final.table.entries, ∀ k ∈ e.tree.labels,
          k = linearSearch.start ∨ k ∈ linearSearch.grammar.palette.active := by
  have hevaluation : linearConfig.evaluation.validate = .ok () := by
    change EvaluationConfig.validate { jitter := false } = _
    decide
  have hvalidate : linearConfig.validate = .ok () := by
    rw [Config.validate, hevaluation]
    rfl
  have hcreate : create linearConfig smallBackend smallMetric = .ok linearSearch := by
    rw [create, hvalidate]
    rfl
  have hrun : (linearSearch.run [0.0, 1.0] [0.0, 1.0] (fun _ ↦ false)
      (fun _ _ _ ↦ 0.0)).toOption.any (fun r ↦ ¬ ∀ e ∈ r.final.table.entries, ∀ k ∈ e.tree.labels,
        k = linearSearch.start ∨ k ∈ linearSearch.grammar.palette.active) = true := by decide
  cases hr : linearSearch.run [0.0, 1.0] [0.0, 1.0] (fun _ ↦ false) (fun _ _ _ ↦ 0.0) with
  | ok r =>
    rw [hr] at hrun
    exact ⟨hcreate, r, rfl, of_decide_eq_true hrun⟩
  | error e =>
    rw [hr] at hrun
    cases hrun

end CovarianceSearch.Search
