import CovarianceSearch.Proofs.FloatStorage
import CovarianceSearch.Proofs.Search.Ending
import CovarianceSearch.Proofs.Search.Truncation

namespace CovarianceSearch

theorem Entry.eq_infinity {x : Float} (hx : x.isNaN = false) (h : ¬ x < Entry.infinity) :
    x = Entry.infinity := by
  rw [FloatOrder.lt_iff_unpack_lt] at h
  have hnan : x.toModel.unpack.isNaN = false := hx
  rw [unpack_infinity] at h
  cases hunpack : x.toModel.unpack with
  | notANumber => rw [hunpack] at hnan; cases hnan
  | infinity s =>
    cases s with
    | positive =>
      rw [← FloatRounding.ofModel_pack hunpack]
      exact FloatRounding.ofModel_pack unpack_infinity
    | negative => rw [hunpack] at h; exact absurd rfl h
  | zero s => rw [hunpack] at h; exact absurd rfl h
  | finite s m e hm => rw [hunpack] at h; exact absurd (by cases s <;> rfl) h

namespace Table

/-- The first of two entries with their places has the better score, or the same score and the
earlier place. -/
structure Precedes (p q : Entry × ℕ) : Prop where
  score_le : p.1.score ≤ q.1.score
  place_lt : q.1.score ≤ p.1.score → p.2 < q.2

/-- Different entries of a table, with their places, in an order in which the others come behind
them. -/
structure IsChoice (t : Table) (kept : List (Entry × ℕ)) : Prop where
  placed : ∀ p ∈ kept, t.entries[p.2]? = some p.1
  distinct : (kept.map Prod.snd).Nodup
  ordered : kept.Pairwise Precedes
  left_out : ∀ q ∈ t.entries.zipIdx, q ∉ kept → ∀ p ∈ kept, Precedes p q

/-- The best entries of a table are a choice of as many as there are, more of them begin with fewer
of them, and the best score is that of the first. -/
structure IsRanked (t : Table) : Prop where
  best : ∀ n, ∃ kept, t.best n = kept.map Prod.fst ∧ kept.length = min n t.size ∧ t.IsChoice kept
  best_mono : ∀ n m, n ≤ m → t.best n <+: t.best m
  bestScore : t.entries ≠ [] → ∃ e, t.best 1 = [e] ∧ t.bestScore = e.score

variable {t : Table}

theorem Precedes.of_order {p q : Entry × ℕ} (hp : p.1.score.isNaN = false)
    (hq : q.1.score.isNaN = false)
    (h : p.1.score < q.1.score ∨ ¬ q.1.score < p.1.score ∧ p.2 < q.2) : Precedes p q := by
  rcases h with hlt | ⟨hnot, hplace⟩
  · refine ⟨FloatOrder.le_of_lt hlt, fun hle ↦ ?_⟩
    have hself := FloatOrder.lt_of_lt_of_le hlt hle
    exact absurd hself (FloatOrder.not_lt_of_lt hself)
  · exact ⟨FloatOrder.le_of_not_lt hp hq hnot, fun _ ↦ hplace⟩

theorem exists_choice (h : ∀ e ∈ t.entries, e.score.isNaN = false) (n : ℕ) :
    ∃ kept, t.best n = kept.map Prod.fst ∧ kept.length = min n t.size ∧ t.IsChoice kept := by
  obtain ⟨order, hperm, hranked, hpairwise⟩ := exists_order_ranked h
  have hnan : ∀ p ∈ order, p.1.score.isNaN = false :=
    fun p hp ↦ h p.1 (List.fst_mem_of_mem_zipIdx (hperm.mem_iff.1 hp))
  have hordered : order.Pairwise Precedes :=
    hpairwise.imp_of_mem fun hp hq ↦ Precedes.of_order (hnan _ hp) (hnan _ hq)
  refine ⟨order.take n, ?_, ?_, ?_⟩
  · rw [best, hranked, List.map_take]
  · rw [List.length_take, hperm.length_eq, List.length_zipIdx, size]
  · constructor
    case placed =>
      intro p hp
      exact List.mem_zipIdx_iff_getElem?.1 (hperm.mem_iff.1 (List.mem_of_mem_take hp))
    case distinct =>
      have hplaces : (order.map Prod.snd).Nodup := by
        rw [(hperm.map Prod.snd).nodup_iff, List.zipIdx_map_snd]
        exact List.nodup_range'
      rw [List.map_take]
      exact hplaces.sublist (List.take_sublist _ _)
    case ordered => exact hordered.sublist (List.take_sublist _ _)
    case left_out =>
      intro q hq hnot p hp
      rw [← List.take_append_drop n order] at hperm hordered
      have hrest := (List.mem_append.1 (hperm.mem_iff.2 hq)).resolve_left hnot
      exact (List.pairwise_append.1 hordered).2.2 p hp q hrest

theorem foldl_better_of_not_lt {x : Float} {scores : List Float} (h : ∀ y ∈ scores, ¬ y < x) :
    scores.foldl better x = x := by
  induction scores with
  | nil => rfl
  | cons y scores ih =>
    obtain ⟨hy, hscores⟩ := List.forall_mem_cons.1 h
    rw [List.foldl_cons, better, if_neg hy, ih hscores]

theorem foldl_better_eq {x y : Float} {before after : List Float}
    (hbefore : ∀ z ∈ x :: before, y < z) (hafter : ∀ z ∈ after, ¬ z < y) :
    (before ++ y :: after).foldl better x = y := by
  have hlt := hbefore _ (foldl_better_mem x before)
  rw [List.foldl_append, List.foldl_cons, better, if_pos hlt, foldl_better_of_not_lt hafter]

theorem bestScore_eq_of_mem_head?_ranked (h : ∀ e ∈ t.entries, e.score.isNaN = false) {e : Entry}
    (he : e ∈ t.ranked.head?) : t.bestScore = e.score := by
  obtain ⟨i, hi, hfirst⟩ := exists_position_of_mem_head?_ranked h he
  have hnan := h e (List.fst_mem_of_mem_zipIdx hi)
  have hplace (j : ℕ) (hj : j < t.entries.length) :
      (j = i ∧ t.entries[j] = e) ∨ e.score < t.entries[j].score ∨
        ¬ t.entries[j].score < e.score ∧ i < j := by
    have hmem : (t.entries[j], j) ∈ t.entries.zipIdx :=
      List.mem_zipIdx_iff_getElem?.2 (List.getElem?_eq_getElem hj)
    exact (hfirst _ hmem).imp_left fun heq ↦ ⟨congrArg Prod.snd heq, congrArg Prod.fst heq⟩
  rw [bestScore_eq]
  by_cases hlt : e.score < Entry.infinity
  · have hget : t.entries[i]? = some e := List.mem_zipIdx_iff_getElem?.1 hi
    obtain ⟨hilt, hie⟩ := List.getElem?_eq_some_iff.1 hget
    have hsplit : t.entries = t.entries.take i ++ e :: t.entries.drop (i + 1) := by
      rw [← hie, ← List.drop_eq_getElem_cons hilt, List.take_append_drop]
    rw [hsplit, List.map_append, List.map_cons]
    apply foldl_better_eq
    · rw [List.forall_mem_cons, List.forall_mem_map]
      refine ⟨hlt, fun e' he' ↦ ?_⟩
      obtain ⟨j, hj, rfl⟩ := List.mem_take_iff_getElem.1 he'
      rcases hplace j (by omega) with ⟨rfl, -⟩ | hless | ⟨-, hlate⟩
      · omega
      · exact hless
      · omega
    · rw [List.forall_mem_map]
      intro e' he'
      obtain ⟨j, hj, rfl⟩ := List.mem_drop_iff_getElem.1 he'
      rcases hplace (i + 1 + j) (by omega) with ⟨heq, -⟩ | hless | ⟨hnot, -⟩
      · omega
      · exact FloatOrder.not_lt_of_lt hless
      · exact hnot
  · -- Nothing has a score then, since the best one is as great as can be.
    have hinfinity := Entry.eq_infinity hnan hlt
    rw [hinfinity]
    apply foldl_better_of_not_lt
    rw [List.forall_mem_map]
    intro e' he' hless
    have hle := score_le_of_mem_head?_ranked h he he'
    rw [hinfinity] at hle
    have hself := FloatOrder.lt_of_le_of_lt hle hless
    exact absurd hself (FloatOrder.not_lt_of_lt hself)

theorem isRanked (h : ∀ e ∈ t.entries, e.score.isNaN = false) : t.IsRanked where
  best := exists_choice h
  best_mono n m hle := List.take_prefix_take_left hle
  bestScore hne := by
    obtain ⟨e, -, hranked, -⟩ := exists_head?_best hne Nat.one_ne_zero
    refine ⟨e, ?_, bestScore_eq_of_mem_head?_ranked h hranked⟩
    rw [best, List.take_one, hranked]
    rfl

end Table

namespace Discovery

open Search

/-- Where no score is undefined, the best entries are ranked by score and then by the order of the
table, and the best score is that of the first. No run leaves an undefined score, so that what it
reports are the best entries of its last table, and none of them all is better than the first. -/
theorem best_is_ranked :
    (∀ t : Table, (∀ e ∈ t.entries, e.score.isNaN = false) → t.IsRanked) ∧
    ∀ (M : Type) [Model M] (config : Config) (backend : Backend M) (metric : Metric M)
      (search : Search M) (xs ys : List Float) (cancelled : ℕ → Bool) (deviates : ℕ → Deviates)
      (r : Run), create config backend metric = .ok search →
      search.run xs ys cancelled deviates = .ok r →
      (∀ e ∈ r.final.table.entries, e.score.isNaN = false) ∧ r.final.table.IsRanked ∧
      ∀ startedAt finishedAt d, d = ofRun config.search.findBest startedAt finishedAt r →
        d.kernels = r.final.table.best config.search.findBest ∧
        ∃ e ∈ r.final.table.entries, d.best? = some e ∧ e.score = r.final.table.bestScore ∧
          ∀ e' ∈ r.final.table.entries, e.score ≤ e'.score := by
  refine ⟨fun t h ↦ Table.isRanked h, ?_⟩
  intro M _ config backend metric search xs ys cancelled deviates r hcreate hr
  obtain ⟨depth, s, hended⟩ := exists_ended (create_eq_ok hcreate).1 hr
  have hnan := hended.isNaN
  refine ⟨hnan, Table.isRanked hnan, ?_⟩
  rintro startedAt finishedAt d rfl
  obtain ⟨e, he, hranked, hbest⟩ :=
    Table.exists_head?_best hended.entries_ne_nil (findBest_ne_zero hcreate)
  refine ⟨rfl, e, he, hbest, (Table.bestScore_eq_of_mem_head?_ranked hnan hranked).symm, ?_⟩
  exact fun e' he' ↦ Table.score_le_of_mem_head?_ranked hnan hranked he'

def tiedTable : Table where
  entries :=
    [{ Entry.unscored "constant" (.leaf .constant) 0 with score := 5.0 },
      { Entry.unscored "linear" (.leaf .linear) 0 with score := 2.0 },
      Entry.unscored "rbf" (.leaf .rbf) 0,
      { Entry.unscored "white" (.leaf .white) 0 with score := 2.0 }]

theorem best_is_ranked_tiedTable :
    (∀ e ∈ tiedTable.entries, e.score.isNaN = false) ∧ tiedTable.IsRanked ∧
      (tiedTable.best 3).map (·.key) = ["linear", "white", "constant"] ∧
      create contentConfig smallBackend smallMetric = .ok contentSearch ∧
      ∃ r, contentSearch.run [0.0, 1.0] [0.0, 1.0] (fun _ ↦ false) (fun _ _ _ ↦ 0.0) = .ok r ∧
        r.final.table.IsRanked ∧
        ∃ e ∈ r.final.table.entries,
          (ofRun contentConfig.search.findBest "start" "end" r).best? = some e ∧
            ∀ e' ∈ r.final.table.entries, e.score ≤ e'.score := by
  have hnan : ∀ e ∈ tiedTable.entries, e.score.isNaN = false := by decide +kernel
  have hcreate := create_contentConfig
  obtain ⟨r, hr, -⟩ := exists_run_contentSearch
  obtain ⟨-, hranked, hbest⟩ := best_is_ranked.2 _ _ _ _ _ _ _ _ _ r hcreate hr
  obtain ⟨-, e, he, hfirst, -, hleast⟩ := hbest "start" "end" _ rfl
  exact ⟨hnan, best_is_ranked.1 _ hnan, by decide +kernel, hcreate, r, hr, hranked, e, he, hfirst,
    hleast⟩

end Discovery

end CovarianceSearch
