import CovarianceSearch.Proofs.Grammar.Steps
import CovarianceSearch.Proofs.Search.Growth

namespace CovarianceSearch.Search

variable {M : Type} {search : Search M} {depth : Nat} {P : ℕ → KernelTree → Prop}

/-- A property of the trees that a search expands, which depends on how many steps may have led to
them. Simplification keeps it, and no tree that a step leads to lacks it. -/
structure IsInvariant (search : Search M) (P : ℕ → KernelTree → Prop) : Prop where
  seed : ∀ k, k = search.start ∨ k ∈ search.grammar.palette.active → P 0 (.leaf k)
  mono : ∀ {m n t}, m ≤ n → P m t → P n t
  simplify : ∀ {n t}, t.IsValid → P n t → P n t.simplify
  step : ∀ {n t s}, t.IsValid → P n t → search.grammar.palette.Steps t s → P (n + 1) s

/-- Whether an entry is expanded from a valid tree with a property, and has the simplified form of
that. -/
def Descends (search : Search M) (P : KernelTree → Prop) (e : Entry) : Prop :=
  ∃ t ∈ search.grammar.subject? e, e.tree = t.simplify ∧ t.IsValid ∧ P t

theorem Descends.mono {P Q : KernelTree → Prop} {e : Entry} (h : search.Descends P e)
    (hPQ : ∀ t, P t → Q t) : search.Descends Q e := by
  obtain ⟨t, hsubject, htree, hvalid, ht⟩ := h
  exact ⟨t, hsubject, htree, hvalid, hPQ t ht⟩

theorem IsInvariant.tree (hP : search.IsInvariant P) {n : ℕ} {e : Entry}
    (h : search.Descends (P n) e) : P n e.tree := by
  obtain ⟨t, -, htree, hvalid, ht⟩ := h
  rw [htree]
  exact hP.simplify hvalid ht

theorem IsInvariant.seedEntry (hP : search.IsInvariant P) {k : BaseKernel} (hnamed : k.IsNamed)
    (hk : k = search.start ∨ k ∈ search.grammar.palette.active) :
    search.Descends (P 0) (search.grammar.seedEntry k) :=
  ⟨.leaf k, Grammar.subject?_seedEntry hnamed, rfl, KernelTree.isValid_leaf k, hP.seed k hk⟩

theorem exists_expand_of_mem_candidates {frontier : List Entry} {cs : List Candidate}
    (hcs : search.candidates depth frontier = .ok cs) {c : Candidate} (hc : c ∈ cs) :
    ∃ e step, search.grammar.expand e = .ok step ∧ c ∈ step ∧
      (e ∈ frontier ∨ ∃ k ∈ search.grammar.palette.active, e = search.grammar.seedEntry k) := by
  obtain ⟨steps, bases, hsteps, hbases, rfl⟩ := candidates_eq_ok_iff.1 hcs
  rcases List.mem_append.1 hc with hc | hc
  · obtain ⟨step, hstep, hc⟩ := List.mem_flatten.1 hc
    obtain ⟨e, he, hexpand⟩ := exists_of_mem_forall₂ hsteps hstep
    exact ⟨e, step, hexpand, hc, .inl he⟩
  · obtain ⟨step, hstep, hc⟩ := List.mem_flatten.1 hc
    obtain ⟨k, hk, hexpand⟩ := exists_of_mem_forall₂ hbases hstep
    split at hk
    · exact ⟨_, step, hexpand, hc, .inr ⟨k, hk, rfl⟩⟩
    · cases hk

theorem IsInvariant.candidates (hP : search.IsInvariant P) (hnamed : search.IsNamed) {n : ℕ}
    {frontier : List Entry} (hfrontier : ∀ e ∈ frontier, search.Descends (P n) e)
    {cs : List Candidate} (hcs : search.candidates depth frontier = .ok cs) :
    ∀ c ∈ cs, P (n + 1) c.tree := by
  intro c hc
  obtain ⟨e, step, hexpand, hc, he⟩ := exists_expand_of_mem_candidates hcs hc
  have hdescends : search.Descends (P n) e := by
    rcases he with he | ⟨k, hk, rfl⟩
    · exact hfrontier e he
    · have hseed := hP.seedEntry (hnamed.palette.of_mem_active hk) (.inr hk)
      exact hseed.mono fun t ↦ hP.mono (Nat.zero_le n)
  obtain ⟨t, hsubject, -, hvalid, ht⟩ := hdescends
  obtain ⟨t', hsubject', hsteps⟩ := Grammar.exists_steps_of_expand hnamed.palette hexpand
  rw [hsubject] at hsubject'
  cases hsubject'
  exact hP.step hvalid ht (hsteps c hc)

variable [Model M] {xs ys : List Float} {cancelled : Nat → Bool} {deviates : Nat → Deviates}
  {batches : List (List KernelTree)} {s : State}

/-- At most as many steps lead to what an entry is expanded from as there have been depths, and at
most one more than the depth of the entry. -/
theorem Reaches.descends (hP : search.IsInvariant P) (hnamed : search.IsNamed)
    (h : search.Reaches xs ys cancelled deviates depth batches s) :
    ∀ e ∈ s.table.entries, search.Descends (P (min depth (e.depth + 1))) e := by
  induction h with
  | initial h =>
    rw [initial_eq] at h
    cases h
    intro e he
    rw [List.mem_singleton.1 he]
    exact hP.seedEntry hnamed.start (.inl rfl)
  | @depth depth batches s s' pass h _ _ hc ih =>
    have hsound := h.isSound hnamed
    obtain ⟨new, hentries, hnew, -⟩ := hc.exists_new hsound.keys
    have hcandidates := hc.candidates
    rw [hc.frontier] at hcandidates
    have hadmits := hsound.admits_candidates hnamed hcandidates
    have hfrontier : ∀ e ∈ search.frontier s, search.Descends (P depth) e := fun e he ↦
      (ih e (mem_frontier he)).mono fun t ↦ hP.mono (Nat.min_le_left _ _)
    have htrees := hP.candidates hnamed hfrontier hcandidates
    rw [hentries]
    refine List.forall_mem_append.2 ⟨fun e he ↦ ?_, fun e he ↦ ?_⟩
    · exact (ih e he).mono fun t ↦ hP.mono (by omega)
    · obtain ⟨c, hmem, hce⟩ := exists_of_mem_forall₂ hnew he
      have hc := mem_of_mem_firstOccurrences hmem
      have hvalid := (hadmits c hc).valid
      obtain ⟨t, hsubject, htree, ht⟩ := (hadmits c hc).exists_subject hce.toKeeps
      rw [hce.depth_eq, Nat.min_self]
      rcases ht with rfl | rfl
      · exact ⟨_, hsubject, htree, hvalid, htrees c hc⟩
      · exact ⟨_, hsubject, htree, hvalid.isValid_simplify, hP.simplify hvalid (htrees c hc)⟩

end CovarianceSearch.Search
