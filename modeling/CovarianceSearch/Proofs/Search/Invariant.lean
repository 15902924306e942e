import CovarianceSearch.Proofs.Evaluation
import CovarianceSearch.Proofs.Search.Fresh
import CovarianceSearch.Proofs.Search.Step

namespace CovarianceSearch

theorem Entry.Keeps.scored {e : Entry} {c : Candidate} (h : e.Keeps c) (score : Float)
    (params : Option Assignment) : (e.scored score params).Keeps c :=
  ⟨h.key, h.tree, h.expression⟩

structure Entry.IsEntered (depth : Nat) (c : Candidate) (e : Entry) : Prop extends e.Keeps c where
  depth_eq : e.depth = depth
  evaluated : e.evaluated = true
  settled : IsSettled e.score e.params

theorem forall₂_map_zip {α β γ δ : Type} {R : α → β → Prop} {S : β → γ → Prop} {T : α → δ → Prop}
    {f : β × γ → δ} (hf : ∀ {a b c}, R a b → S b c → T a (f (b, c))) {as : List α} {bs : List β}
    {cs : List γ} (hR : List.Forall₂ R as bs) (hS : List.Forall₂ S bs cs) :
    List.Forall₂ T as ((bs.zip cs).map f) := by
  induction hR generalizing cs with
  | nil => exact .nil
  | cons hab _ ih =>
    cases hS with
    | cons hbc hS => exact .cons (hf hab hbc) (ih hS)

theorem exists_of_mem_forall₂ {α β : Type} {R : α → β → Prop} {as : List α} {bs : List β}
    (h : List.Forall₂ R as bs) {b : β} (hb : b ∈ bs) : ∃ a ∈ as, R a b := by
  induction h with
  | nil => cases hb
  | @cons a b' as bs hab _ ih =>
    rcases List.mem_cons.1 hb with rfl | hb
    · exact ⟨a, by simp, hab⟩
    · obtain ⟨a', ha', h⟩ := ih hb
      exact ⟨a', by simp [ha'], h⟩

namespace Search

variable {M : Type} (search : Search M)

structure IsNamed : Prop where
  start : search.start.IsNamed
  palette : search.grammar.palette.IsNamed

/-- The states of a search between two depths, with the batches of trees that the evaluator has been
handed so far. -/
inductive Reaches [Model M] (xs ys : List Float) (cancelled : Nat → Bool)
    (deviates : Nat → Deviates) : Nat → List (List KernelTree) → State → Prop
  | initial {s : State} : search.initial = .ok s → Reaches xs ys cancelled deviates 0 [] s
  | depth {depth : Nat} {batches : List (List KernelTree)} {s s' : State} {pass : Pass} :
      Reaches xs ys cancelled deviates depth batches s → depth < search.config.searchDepth →
      cancelled depth = false →
      search.Completes xs ys (deviates depth) depth s pass s' →
      Reaches xs ys cancelled deviates (depth + 1) (batches ++ [pass.batch]) s'

/-- What holds of the table between two depths. The starting kernel comes first and is never scored,
and all other entries have been scored in the order of the batches. -/
structure IsSound (depth : Nat) (batches : List (List KernelTree)) (s : State) : Prop where
  seed : ∃ rest, s.table.entries = search.grammar.seedEntry search.start :: rest ∧
    rest.map (·.tree) = batches.flatten ∧ ∀ e ∈ rest, e.evaluated = true
  keys : s.table.keys.Nodup
  keeps : ∀ e ∈ s.table.entries, ∃ c, search.grammar.Admits c ∧ e.Keeps c
  depths : s.table.entries.Pairwise fun a b ↦ a.depth ≤ b.depth
  depth_le : ∀ e ∈ s.table.entries, e.depth ≤ depth
  settled : ∀ e ∈ s.table.entries, IsSettled e.score e.params

variable {search}

theorem keeps_seedEntry (g : Grammar) (k : BaseKernel) : (g.seedEntry k).Keeps (g.seed k) := by
  refine ⟨?_, ?_, rfl⟩
  · rw [Candidate.key, Grammar.seed_tree, KernelTree.simplify_leaf]
    rfl
  · rw [Grammar.seed_tree, KernelTree.simplify_leaf]
    rfl

theorem key_seed (g : Grammar) (k : BaseKernel) : (g.seed k).key = .ok k.name :=
  (keeps_seedEntry g k).key

theorem initial_eq (search : Search M) :
    search.initial = .ok ⟨⟨[search.grammar.seedEntry search.start]⟩, [], []⟩ := by
  simp only [initial, Grammar.seed_tree]
  rfl

theorem isSound_initial (hnamed : search.IsNamed) {s : State} (h : search.initial = .ok s) :
    search.IsSound 0 [] s := by
  rw [initial_eq] at h
  cases h
  have hmem {e : Entry} (he : e ∈ [search.grammar.seedEntry search.start]) :
      e = search.grammar.seedEntry search.start := List.mem_singleton.1 he
  constructor
  case seed => exact ⟨[], rfl, rfl, by simp⟩
  case keys => simp [Table.keys]
  case keeps =>
    intro e he
    rw [hmem he]
    exact ⟨_, Grammar.admits_seed hnamed.start, keeps_seedEntry _ _⟩
  case depths => simp
  case depth_le =>
    intro e he
    rw [hmem he]
    exact Nat.le_refl 0
  case settled =>
    intro e he
    rw [hmem he]
    exact .inr ⟨rfl, rfl⟩

theorem mem_frontier {s : State} {e : Entry} (h : e ∈ search.frontier s) :
    e ∈ s.table.entries :=
  (StableSort.sort_perm _ _).mem_iff.1 (List.mem_of_mem_take h)

section

variable {depth : Nat} {batches : List (List KernelTree)} {s : State}

theorem IsSound.exists_expand (hnamed : search.IsNamed) (h : search.IsSound depth batches s)
    {e : Entry} (he : e ∈ s.table.entries) :
    ∃ cs, search.grammar.expand e = .ok cs ∧ ∀ c ∈ cs, search.grammar.Admits c := by
  obtain ⟨c, hc, hkeeps⟩ := h.keeps e he
  refine Grammar.exists_expand hnamed.palette hc ?_ hkeeps.expression
  rw [hkeeps.tree]
  exact hc.valid.isValid_simplify

theorem IsSound.exists_candidates (hnamed : search.IsNamed) (h : search.IsSound depth batches s) :
    ∃ cs, search.candidates depth (search.frontier s) = .ok cs ∧
      ∀ c ∈ cs, search.grammar.Admits c := by
  have hexpand : ∀ e ∈ search.frontier s, ∃ cs, search.grammar.expand e = .ok cs ∧
      ∀ c ∈ cs, search.grammar.Admits c := fun e he ↦ h.exists_expand hnamed (mem_frontier he)
  obtain ⟨steps, hsteps, hflatten⟩ := Outcome.exists_mapM_and_forall_flatten hexpand
  rw [candidates, hsteps]
  by_cases hfirst : depth = 0 && search.config.fullInitialExpansion
  · obtain ⟨extra, hextra, hadmits⟩ := Grammar.exists_expandBaseKernels hnamed.palette
    refine ⟨steps.flatten ++ extra, Outcome.bind_eq_ok_iff.2 ⟨steps, rfl, ?_⟩, ?_⟩
    · rw [if_pos hfirst, hextra]
      rfl
    · intro c hc
      exact (List.mem_append.1 hc).elim (hflatten c) (hadmits c)
  · refine ⟨steps.flatten ++ [], Outcome.bind_eq_ok_iff.2 ⟨steps, rfl, ?_⟩, by simpa using hflatten⟩
    rw [if_neg hfirst]
    rfl

theorem IsSound.admits_candidates (hnamed : search.IsNamed) (h : search.IsSound depth batches s)
    {cs : List Candidate} (hcs : search.candidates depth (search.frontier s) = .ok cs) :
    ∀ c ∈ cs, search.grammar.Admits c := by
  obtain ⟨cs', hcs', hadmits⟩ := h.exists_candidates hnamed
  rw [hcs] at hcs'
  cases hcs'
  exact hadmits

theorem Completes.settled [Model M] {xs ys : List Float} {deviates : Deviates} {pass : Pass}
    {s' : State} (h : search.Completes xs ys deviates depth s pass s') :
    List.Forall₂ (fun e v ↦ v.tree = e.tree ∧ IsSettled v.score v.params) pass.fresh
      pass.evaluations :=
  List.forall₂_map_left_iff.1 (Evaluator.evaluations_settled h.evaluations)

theorem Completes.entries_eq [Model M] {xs ys : List Float} {deviates : Deviates} {pass : Pass}
    {s' : State} (h : search.Completes xs ys deviates depth s pass s')
    (hkeys : s.table.keys.Nodup) :
    s'.table.entries = s.table.entries ++
      (pass.fresh.zip pass.evaluations).map fun r ↦ r.1.scored r.2.score r.2.params := by
  have hunscored : ∀ e ∈ pass.fresh, e.evaluated = false := by
    intro e he
    obtain ⟨c, -, hc⟩ := exists_of_mem_forall₂ (forall₂_of_freshEntries h.fresh) he
    exact hc.unscored
  rw [h.result]
  exact completed_entries (nodup_keys_of_freshEntries hkeys h.fresh) hunscored h.settled.length_eq

/-- A completed depth appends a scored entry for every first occurrence of a new key among its
candidates, and hands exactly these to the evaluator. -/
theorem Completes.exists_new [Model M] {xs ys : List Float} {deviates : Deviates} {pass : Pass}
    {s' : State} (h : search.Completes xs ys deviates depth s pass s')
    (hkeys : s.table.keys.Nodup) :
    ∃ new, s'.table.entries = s.table.entries ++ new ∧
      List.Forall₂ (Entry.IsEntered depth)
        (firstOccurrences Candidate.key (knownKeys s.table []) pass.candidates) new ∧
      new.map (·.tree) = pass.batch ∧ s'.table.keys = s.table.keys ++ pass.fresh.map (·.key) := by
  have hentries := h.entries_eq hkeys
  have hfst : (pass.fresh.zip pass.evaluations).map Prod.fst = pass.fresh :=
    List.map_fst_zip (Nat.le_of_eq h.settled.length_eq)
  refine ⟨_, hentries, ?_, ?_, ?_⟩
  · refine forall₂_map_zip (fun hc hv ↦ ?_) (forall₂_of_freshEntries h.fresh) h.settled
    exact ⟨hc.toKeeps.scored _ _, hc.depth_eq, rfl, hv.2⟩
  · rw [Pass.batch, ← hfst, List.map_map, List.map_map, hfst]
    rfl
  · rw [Table.keys, hentries, List.map_append, List.map_map, ← hfst, List.map_map, hfst]
    rfl

theorem IsSound.exists_admitted [Model M] (hnamed : search.IsNamed)
    (hs : search.IsSound depth batches s) {xs ys : List Float} {deviates : Deviates} {pass : Pass}
    {s' : State} (h : search.Completes xs ys deviates depth s pass s') :
    ∃ new, s'.table.entries = s.table.entries ++ new ∧ new.map (·.tree) = pass.batch ∧
      ∀ e ∈ new, ∃ c, search.grammar.Admits c ∧ e.IsEntered depth c := by
  obtain ⟨new, hentries, hentered, hbatch, -⟩ := h.exists_new hs.keys
  refine ⟨new, hentries, hbatch, fun e he ↦ ?_⟩
  obtain ⟨c, hc, hce⟩ := exists_of_mem_forall₂ hentered he
  have hadmits := hs.admits_candidates hnamed (h.frontier ▸ h.candidates)
  exact ⟨c, hadmits c (mem_of_mem_firstOccurrences hc), hce⟩

theorem Completes.keys_nodup [Model M] {xs ys : List Float} {deviates : Deviates} {pass : Pass}
    {s' : State} (h : search.Completes xs ys deviates depth s pass s')
    (hkeys : s.table.keys.Nodup) : s'.table.keys.Nodup := by
  obtain ⟨-, -, -, -, hnew⟩ := h.exists_new hkeys
  rw [hnew]
  exact nodup_keys_of_freshEntries hkeys h.fresh

/-- What holds between two depths is kept by every depth that is completed. -/
theorem IsSound.completes [Model M] (hnamed : search.IsNamed) (hs : search.IsSound depth batches s)
    {xs ys : List Float} {deviates : Deviates} {pass : Pass} {s' : State}
    (h : search.Completes xs ys deviates depth s pass s') :
    search.IsSound (depth + 1) (batches ++ [pass.batch]) s' := by
  obtain ⟨new, hentries, hbatch, hnew⟩ := hs.exists_admitted hnamed h
  have hdepth : ∀ e ∈ new, e.depth = depth := by
    intro e he
    obtain ⟨c, -, hc⟩ := hnew e he
    exact hc.depth_eq
  constructor
  case seed =>
    obtain ⟨rest, hrest, htrees, hscored⟩ := hs.seed
    refine ⟨rest ++ new, by rw [hentries, hrest, List.cons_append], ?_, ?_⟩
    · rw [List.map_append, htrees, hbatch, List.flatten_append, List.flatten_singleton]
    · refine List.forall_mem_append.2 ⟨hscored, fun e he ↦ ?_⟩
      obtain ⟨c, -, hc⟩ := hnew e he
      exact hc.evaluated
  case keys => exact h.keys_nodup hs.keys
  case keeps =>
    rw [hentries]
    refine List.forall_mem_append.2 ⟨hs.keeps, fun e he ↦ ?_⟩
    obtain ⟨c, hadmits, hc⟩ := hnew e he
    exact ⟨c, hadmits, hc.toKeeps⟩
  case depths =>
    rw [hentries]
    refine List.pairwise_append.2 ⟨hs.depths, ?_, fun a ha b hb ↦ ?_⟩
    · refine List.pairwise_of_forall_mem_list fun a ha b hb ↦ ?_
      rw [hdepth a ha, hdepth b hb]
    · rw [hdepth b hb]
      exact hs.depth_le a ha
  case depth_le =>
    rw [hentries]
    refine List.forall_mem_append.2 ⟨fun e he ↦ ?_, fun e he ↦ ?_⟩
    · exact Nat.le_succ_of_le (hs.depth_le e he)
    · rw [hdepth e he]
      exact Nat.le_succ depth
  case settled =>
    rw [hentries]
    refine List.forall_mem_append.2 ⟨hs.settled, fun e he ↦ ?_⟩
    obtain ⟨c, -, hc⟩ := hnew e he
    exact hc.settled

theorem Reaches.isSound [Model M] (hnamed : search.IsNamed) {xs ys : List Float}
    {cancelled : Nat → Bool} {deviates : Nat → Deviates}
    (h : search.Reaches xs ys cancelled deviates depth batches s) :
    search.IsSound depth batches s := by
  induction h with
  | initial h => exact isSound_initial hnamed h
  | depth _ _ _ hc ih => exact ih.completes hnamed hc

end

end Search

end CovarianceSearch
