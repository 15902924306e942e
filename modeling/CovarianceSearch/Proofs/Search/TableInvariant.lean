import CovarianceSearch.Proofs.KernelTree.Idempotence
import CovarianceSearch.Proofs.Search.Run

namespace CovarianceSearch

/-- A key stands for the tree that it is the text of, and this is the form of it that is kept. -/
structure Entry.IsKept (e : Entry) : Prop where
  text_eq : e.tree.text = .ok e.key
  simplify_eq : e.tree.simplify = e.tree

def Entry.IsReadable (e : Entry) : Prop :=
  ∃ (text : String) (expression : Expression), e.expression = some text ∧
    Expression.parse text = .ok expression ∧ expression.toTree.simplify.text = .ok e.key

theorem Entry.Keeps.isKept {e : Entry} {c : Candidate} (h : e.Keeps c) : e.IsKept where
  text_eq := h.tree ▸ h.key
  simplify_eq := by rw [h.tree, (KernelTree.isSimplified_simplify c.tree).simplify_eq]

theorem Entry.Keeps.isReadable {e : Entry} {c : Candidate} (h : e.Keeps c) (hc : c.IsWritten) :
    e.IsReadable := by
  obtain ⟨s, hs, -, hexpression, htree⟩ := hc
  exact ⟨s.text, s, h.expression.trans hexpression, hs.parse_text, htree ▸ h.key⟩

theorem IsSettled.isFinite_or_eq {score : Float} {params : Option Assignment}
    (h : IsSettled score params) : score.isFinite = true ∨ score = Entry.infinity :=
  h.imp And.left And.left

theorem isFinite_infinity : Entry.infinity.isFinite = false := by decide

theorem IsSettled.isSome_params_iff {score : Float} {params : Option Assignment}
    (h : IsSettled score params) : params.isSome = true ↔ score.isFinite = true := by
  rcases h with ⟨hscore, hparams⟩ | ⟨rfl, rfl⟩
  · exact ⟨fun _ ↦ hscore, fun _ ↦ hparams⟩
  · simp [isFinite_infinity]

namespace Search

variable {M : Type} {search : Search M}

/-- What can be relied on in a table, where `batches` are the trees that the evaluator has been
handed. The starting kernel is in none of them, and every other tree of the table is in them
once. -/
structure TableInvariant (search : Search M) (batches : List (List KernelTree)) (t : Table) :
    Prop where
  keys_nodup : t.keys.Nodup
  kept : ∀ e ∈ t.entries, e.IsKept
  depths : (t.entries.map (·.depth)).Pairwise (· ≤ ·)
  readable : search.grammar.kind = .text → ∀ e ∈ t.entries, e.IsReadable
  seed : ∃ seed rest, t.entries = seed :: rest ∧ seed.tree = .leaf search.start ∧
    seed.evaluated = false ∧ seed.score = Entry.infinity ∧
    (∀ e ∈ rest, e.evaluated = true) ∧ batches.flatten = rest.map (·.tree) ∧
    (seed.tree :: batches.flatten).Nodup
  scores : ∀ e ∈ t.entries, (e.score.isFinite = true ∨ e.score = Entry.infinity) ∧
    (e.params.isSome = true ↔ e.score.isFinite = true)

theorem trees_nodup {es : List Entry} (hkept : ∀ e ∈ es, e.IsKept)
    (hkeys : (es.map (·.key)).Nodup) : (es.map (·.tree)).Nodup := by
  have htexts : (es.map (·.tree)).map KernelTree.text = (es.map (·.key)).map Except.ok := by
    rw [List.map_map, List.map_map]
    exact List.map_congr_left fun e he ↦ (hkept e he).text_eq
  have hnodup := hkeys.map (f := Except.ok (ε := NodeFault)) fun _ _ ↦ Except.ok.inj
  exact (htexts ▸ hnodup).of_map

theorem IsSound.tableInvariant {depth : Nat} {batches : List (List KernelTree)} {s : State}
    (h : search.IsSound depth batches s) : search.TableInvariant batches s.table := by
  have hkept : ∀ e ∈ s.table.entries, e.IsKept := by
    intro e he
    obtain ⟨c, -, hkeeps⟩ := h.keeps e he
    exact hkeeps.isKept
  constructor
  case keys_nodup => exact h.keys
  case kept => exact hkept
  case depths => exact List.pairwise_map.2 h.depths
  case readable =>
    intro hkind e he
    obtain ⟨c, hc, hkeeps⟩ := h.keeps e he
    exact hkeeps.isReadable (hc.written hkind)
  case seed =>
    obtain ⟨rest, hrest, htrees, hscored⟩ := h.seed
    refine ⟨_, rest, hrest, rfl, rfl, rfl, hscored, htrees.symm, ?_⟩
    have hnodup := trees_nodup hkept h.keys
    rwa [hrest, List.map_cons, htrees] at hnodup
  case scores =>
    intro e he
    exact ⟨(h.settled e he).isFinite_or_eq, (h.settled e he).isSome_params_iff⟩

/-- The table invariant holds once the starting kernel is entered, after every depth, and so in the
table that a run ends with. -/
theorem reaches_tableInvariant [Model M] {config : Config} {backend : Backend M} {metric : Metric M}
    (hcreate : create config backend metric = .ok search) (xs ys : List Float)
    (cancelled : Nat → Bool) (deviates : Nat → Deviates) :
    (∀ depth batches s, search.Reaches xs ys cancelled deviates depth batches s →
      search.TableInvariant batches s.table) ∧
      ∀ r, search.run xs ys cancelled deviates = .ok r →
        ∃ depth batches s, search.Reaches xs ys cancelled deviates depth batches s ∧
          r.final.table = s.table := by
  obtain ⟨hnamed, -⟩ := create_eq_ok hcreate
  exact ⟨fun depth batches s hs ↦ (hs.isSound hnamed).tableInvariant,
    fun r hr ↦ exists_reaches_of_run hr⟩

theorem smallSearch_tableInvariant :
    create (smallConfig .tree 2) smallBackend smallMetric = .ok (smallSearch .tree 2) ∧
      ∃ batches s, (smallSearch .tree 2).Reaches [0.0, 1.0] [0.0, 1.0] (fun _ ↦ false)
        (fun _ _ _ ↦ 0.0) 1 batches s ∧ (smallSearch .tree 2).TableInvariant batches s.table := by
  have hcreate := create_smallConfig .tree 2
  obtain ⟨s', hs'⟩ := exists_step_smallSearch
  obtain ⟨pass, hpass⟩ := step_eq_next_iff.1 hs'
  have hreaches : (smallSearch .tree 2).Reaches [0.0, 1.0] [0.0, 1.0] (fun _ ↦ false)
      (fun _ _ _ ↦ 0.0) 1 ([] ++ [pass.batch]) s' :=
    .depth (.initial (initial_eq _)) (by decide) rfl hpass
  exact ⟨hcreate, _, s', hreaches, (reaches_tableInvariant hcreate _ _ _ _).1 _ _ _ hreaches⟩

end Search

end CovarianceSearch
