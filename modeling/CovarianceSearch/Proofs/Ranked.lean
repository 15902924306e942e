import CovarianceSearch.Proofs.Evaluation
import CovarianceSearch.Proofs.FloatOrder
import CovarianceSearch.Proofs.StableSort
import CovarianceSearch.Table

namespace CovarianceSearch

theorem Entry.unpack_infinity : infinity.toModel.unpack = .infinity .positive := rfl

theorem Entry.isNaN_infinity : Entry.infinity.isNaN = false := by decide

theorem Entry.le_infinity {x : Float} (hx : x.isNaN = false) : x ≤ Entry.infinity := by
  have hplace : FloatOrder.place Entry.infinity =
      FloatOrder.unpackedPlace (.infinity .positive) := by decide
  rw [FloatOrder.le_iff_place_le hx Entry.isNaN_infinity, hplace]
  exact FloatOrder.unpackedPlace_le _

theorem IsSettled.isNaN {score : Float} {params : Option Assignment} (h : IsSettled score params) :
    score.isNaN = false := by
  rcases h with ⟨hscore, -⟩ | ⟨rfl, -⟩
  · exact FloatOrder.isNaN_of_isFinite hscore
  · decide

def Entry.view (e : Entry) : String × ℕ × Float := (e.key, e.depth, e.score)

/-- Tables without undefined scores are ranked by score and then by position. -/
theorem Table.exists_order_ranked {t : Table} (h : ∀ e ∈ t.entries, e.score.isNaN = false) :
    ∃ order : List (Entry × ℕ), order.Perm t.entries.zipIdx ∧ t.ranked = order.map Prod.fst ∧
      order.Pairwise fun p q ↦ p.1.score < q.1.score ∨ ¬ q.1.score < p.1.score ∧ p.2 < q.2 := by
  have hless : ∀ a ∈ t.entries, ∀ b ∈ t.entries, decide (a.score < b.score) = true ↔
      FloatOrder.place a.score < FloatOrder.place b.score :=
    fun a ha b hb ↦ decide_eq_true_iff.trans (FloatOrder.lt_iff_place_lt (h a ha) (h b hb))
  obtain ⟨order, hperm, hsort, hpairwise⟩ :=
    StableSort.exists_order_sort _ (fun e : Entry ↦ FloatOrder.place e.score) hless
  refine ⟨order, hperm, hsort, hpairwise.imp_of_mem fun {p q} hp hq hlt ↦ ?_⟩
  have hp := h p.1 (List.fst_mem_of_mem_zipIdx (hperm.mem_iff.1 hp))
  have hq := h q.1 (List.fst_mem_of_mem_zipIdx (hperm.mem_iff.1 hq))
  rw [FloatOrder.lt_iff_place_lt hp hq, FloatOrder.lt_iff_place_lt hq hp]
  exact hlt.imp_right fun ⟨he, hlt⟩ ↦ ⟨he.not_gt, hlt⟩

namespace Table

theorem pairwise_ranked {t : Table} (h : ∀ e ∈ t.entries, e.score.isNaN = false) :
    t.ranked.Pairwise fun a b ↦ ¬ b.score < a.score := by
  obtain ⟨order, hperm, hranked, hpairwise⟩ := exists_order_ranked h
  rw [hranked, List.pairwise_map]
  refine hpairwise.imp_of_mem fun {p q} hp hq hlt ↦ ?_
  rcases hlt with hlt | ⟨hnot, -⟩
  · exact FloatOrder.not_lt_of_lt hlt
  · exact hnot

theorem score_le_of_mem_head?_ranked {t : Table} (h : ∀ e ∈ t.entries, e.score.isNaN = false)
    {first e : Entry} (hfirst : first ∈ t.ranked.head?) (he : e ∈ t.entries) :
    first.score ≤ e.score := by
  obtain ⟨rest, hrest⟩ : ∃ rest, t.ranked = first :: rest := List.head?_eq_some_iff.1 hfirst
  have hperm : t.ranked.Perm t.entries := StableSort.sort_perm _ _
  have hnan := h first (hperm.mem_iff.1 (hrest ▸ List.mem_cons_self))
  have hranked : t.ranked.Pairwise fun a b ↦ ¬ b.score < a.score := pairwise_ranked h
  rw [hrest] at hranked
  rcases List.mem_cons.1 (hrest ▸ hperm.mem_iff.2 he) with rfl | hmem
  · exact FloatOrder.le_refl hnan
  · exact FloatOrder.le_of_not_lt hnan (h e he) ((List.pairwise_cons.1 hranked).1 e hmem)

theorem exists_position_of_mem_head?_ranked {t : Table}
    (h : ∀ e ∈ t.entries, e.score.isNaN = false) {first : Entry} (hfirst : first ∈ t.ranked.head?) :
    ∃ i, (first, i) ∈ t.entries.zipIdx ∧ ∀ p ∈ t.entries.zipIdx, p = (first, i) ∨
      first.score < p.1.score ∨ ¬ p.1.score < first.score ∧ i < p.2 := by
  obtain ⟨order, hperm, hranked, hpairwise⟩ := exists_order_ranked h
  rw [hranked, List.head?_map] at hfirst
  obtain ⟨⟨e, i⟩, hhead, rfl⟩ := Option.map_eq_some_iff.1 hfirst
  obtain ⟨rest, rfl⟩ := List.head?_eq_some_iff.1 hhead
  refine ⟨i, hperm.mem_iff.1 List.mem_cons_self, fun p hp ↦ ?_⟩
  rcases List.mem_cons.1 (hperm.mem_iff.2 hp) with rfl | hp
  · exact .inl rfl
  · exact .inr ((List.pairwise_cons.1 hpairwise).1 p hp)

/-- An entry that takes the first place in a grown table has a better score than the one that held
it. An equal score does not displace an earlier one. -/
theorem score_lt_of_first_ne {t t' : Table} (hgrown : t.entries <+: t'.entries)
    (h' : ∀ e ∈ t'.entries, e.score.isNaN = false) {first first' : Entry}
    (hfirst : first ∈ t.ranked.head?) (hfirst' : first' ∈ t'.ranked.head?)
    (hne : first' ≠ first) : first'.score < first.score := by
  have h : ∀ e ∈ t.entries, e.score.isNaN = false := fun e he ↦ h' e (hgrown.subset he)
  obtain ⟨i, hi, hbefore⟩ := exists_position_of_mem_head?_ranked h hfirst
  obtain ⟨i', hi', hbefore'⟩ := exists_position_of_mem_head?_ranked h' hfirst'
  obtain ⟨new, hnew⟩ := hgrown
  rw [← hnew, List.zipIdx_append] at hi' hbefore'
  rcases hbefore' (first, i) (List.mem_append_left _ hi) with heq | hlt | ⟨hnot, hlt⟩
  · exact absurd (congrArg Prod.fst heq).symm hne
  · exact hlt
  · -- The position is within the old table, where the other entry came first.
    have hlength : i < t.entries.length := by simpa using List.snd_lt_of_mem_zipIdx hi
    have hold : (first', i') ∈ t.entries.zipIdx := by
      rcases List.mem_append.1 hi' with hold | hlate
      · exact hold
      · have hle := List.le_snd_of_mem_zipIdx hlate
        omega
    rcases hbefore (first', i') hold with heq | hlt' | ⟨-, hlt'⟩
    · exact absurd (congrArg Prod.fst heq) hne
    · exact absurd hlt' hnot
    · exact absurd hlt (Nat.lt_asymm hlt')

theorem exists_head?_best {t : Table} (hne : t.entries ≠ []) {n : ℕ} (hn : n ≠ 0) :
    ∃ e ∈ t.entries, t.ranked.head? = some e ∧ (t.best n).head? = some e := by
  have hperm : t.ranked.Perm t.entries := StableSort.sort_perm _ _
  have hranked : t.ranked ≠ [] := by
    intro hnil
    rw [hnil] at hperm
    exact hne hperm.nil_eq.symm
  obtain ⟨e, rest, hrest⟩ := List.exists_cons_of_ne_nil hranked
  obtain ⟨m, rfl⟩ := Nat.exists_eq_succ_of_ne_zero hn
  refine ⟨e, hperm.mem_iff.1 (hrest ▸ List.mem_cons_self), ?_, ?_⟩
  · rw [hrest]
    rfl
  · rw [best, hrest]
    rfl

def better (x y : Float) : Float := if y < x then y else x

theorem bestScore_eq (t : Table) :
    t.bestScore = (t.entries.map (·.score)).foldl better Entry.infinity := by
  rw [List.foldl_map]
  rfl

theorem isNaN_foldl_better {x : Float} (hx : x.isNaN = false) (scores : List Float) :
    (scores.foldl better x).isNaN = false := by
  induction scores generalizing x with
  | nil => exact hx
  | cons y scores ih =>
    refine ih ?_
    unfold better
    split
    · next hlt => exact (FloatOrder.isNaN_of_lt hlt).1
    · exact hx

theorem isNaN_bestScore (t : Table) : t.bestScore.isNaN = false := by
  rw [bestScore_eq]
  exact isNaN_foldl_better Entry.isNaN_infinity _

theorem foldl_better_le {x : Float} (hx : x.isNaN = false) (scores : List Float) :
    scores.foldl better x ≤ x := by
  induction scores generalizing x with
  | nil => exact FloatOrder.le_refl hx
  | cons y scores ih =>
    rw [List.foldl_cons, better]
    split
    · next hlt =>
      have hy := (FloatOrder.isNaN_of_lt hlt).1
      exact FloatOrder.le_trans (ih hy) (FloatOrder.le_of_lt hlt)
    · exact ih hx

theorem bestScore_le_of_prefix {t t' : Table} (h : t.entries <+: t'.entries) :
    t'.bestScore ≤ t.bestScore := by
  obtain ⟨new, hnew⟩ := h
  rw [bestScore_eq t', ← hnew, List.map_append, List.foldl_append, ← bestScore_eq]
  exact foldl_better_le t.isNaN_bestScore _

theorem foldl_better_le_of_mem {x : Float} (hx : x.isNaN = false) {scores : List Float}
    (hscores : ∀ y ∈ scores, y.isNaN = false) {y : Float} (hy : y ∈ scores) :
    scores.foldl better x ≤ y := by
  induction scores generalizing x with
  | nil => cases hy
  | cons z scores ih =>
    have hz : z.isNaN = false := hscores z (by simp)
    have hbetter : (better x z).isNaN = false := isNaN_foldl_better hx [z]
    rcases List.mem_cons.1 hy with rfl | hy
    · have hle : better x y ≤ y := by
        unfold better
        split
        · exact FloatOrder.le_refl hz
        · next hlt => exact FloatOrder.le_of_not_lt hx hz hlt
      exact FloatOrder.le_trans (foldl_better_le hbetter scores) hle
    · exact ih hbetter (fun w hw ↦ hscores w (by simp [hw])) hy

theorem le_foldl_better {x y : Float} (hxy : x ≤ y) {scores : List Float}
    (hscores : ∀ z ∈ scores, x ≤ z) : x ≤ scores.foldl better y := by
  induction scores generalizing y with
  | nil => exact hxy
  | cons z scores ih =>
    refine ih ?_ fun w hw ↦ hscores w (by simp [hw])
    unfold better
    split
    · exact hscores z (by simp)
    · exact hxy

theorem better_comm {x y : Float} (hxy : x < y) (z : Float) :
    better (better z x) y = better (better z y) x := by
  have hyx : ¬ y < x := FloatOrder.not_lt_of_lt hxy
  by_cases hyz : y < z
  · have hxz : x < z := FloatOrder.lt_trans hxy hyz
    simp only [better, if_pos hyz, if_pos hxz, if_pos hxy, if_neg hyx]
  · by_cases hxz : x < z
    · simp only [better, if_neg hyz, if_pos hxz, if_neg hyx]
    · simp only [better, if_neg hyz, if_neg hxz]

theorem foldl_better_mem (x : Float) (scores : List Float) :
    scores.foldl better x ∈ x :: scores := by
  induction scores generalizing x with
  | nil => exact List.mem_cons_self
  | cons y scores ih =>
    have hmem := ih (better x y)
    rw [List.foldl_cons]
    rcases List.mem_cons.1 hmem with heq | hmem
    · rw [heq, better]
      split <;> simp
    · exact List.mem_cons_of_mem _ (List.mem_cons_of_mem _ hmem)

structure IsLeastScore (t : Table) (x : Float) : Prop where
  attained : ∃ e ∈ t.entries, e.score = x
  le : ∀ e ∈ t.entries, x ≤ e.score

/-- Where an entry is not scored, the best score is the least one. -/
theorem isLeastScore_bestScore {t : Table} (h : ∀ e ∈ t.entries, e.score.isNaN = false)
    (hinf : ∃ e ∈ t.entries, e.score = Entry.infinity) : t.IsLeastScore t.bestScore := by
  rw [bestScore_eq]
  constructor
  · have hmem := foldl_better_mem Entry.infinity (t.entries.map (·.score))
    rcases List.mem_cons.1 hmem with heq | hmem
    · rw [heq]
      exact hinf
    · exact List.mem_map.1 hmem
  · intro e he
    apply foldl_better_le_of_mem Entry.isNaN_infinity
    · exact List.forall_mem_map.2 h
    · exact List.mem_map_of_mem he

def TieFree (t : Table) : Prop :=
  t.entries.Pairwise fun a b ↦ a.score < b.score ∨ b.score < a.score

instance (t : Table) : Decidable t.TieFree :=
  inferInstanceAs (Decidable (t.entries.Pairwise _))

def view (t : Table) : List (String × ℕ × Float) := t.entries.map Entry.view

section

variable {t t' : Table}

theorem view_keys (t : Table) : t.view.map Prod.fst = t.keys := by
  rw [view, List.map_map]
  rfl

theorem view_scores (t : Table) : t.view.map (·.2.2) = t.entries.map (·.score) := by
  rw [view, List.map_map]
  rfl

theorem tieFree_iff : t.TieFree ↔ t.view.Pairwise fun a b ↦ a.2.2 < b.2.2 ∨ b.2.2 < a.2.2 := by
  rw [view, List.pairwise_map]
  rfl

theorem TieFree.of_perm (hties : t.TieFree) (h : t.view.Perm t'.view) : t'.TieFree := by
  rw [tieFree_iff] at hties ⊢
  exact (h.pairwise_iff fun hab ↦ hab.symm).1 hties

theorem TieFree.pairwise_ranked (hties : t.TieFree)
    (h : ∀ e ∈ t.entries, e.score.isNaN = false) :
    (t.ranked.map Entry.view).Pairwise fun a b ↦ a.2.2 < b.2.2 := by
  have hperm : t.ranked.Perm t.entries := StableSort.sort_perm _ _
  have hdistinct : t.ranked.Pairwise fun a b ↦ a.score < b.score ∨ b.score < a.score :=
    (hperm.pairwise_iff fun hab ↦ hab.symm).2 hties
  rw [List.pairwise_map]
  refine (hdistinct.and (Table.pairwise_ranked h)).imp fun {a b} hab ↦ ?_
  obtain ⟨hlt, hnot⟩ := hab
  exact hlt.resolve_right hnot

/-- Without ties the ranking does not depend on the order in which entries came up. -/
theorem TieFree.map_view_ranked_eq (hties : t.TieFree) (hview : t.view.Perm t'.view)
    (h : ∀ e ∈ t.entries, e.score.isNaN = false) (h' : ∀ e ∈ t'.entries, e.score.isNaN = false) :
    t.ranked.map Entry.view = t'.ranked.map Entry.view := by
  have hperm : (t.ranked.map Entry.view).Perm t.view := (StableSort.sort_perm _ _).map _
  have hperm' : (t'.ranked.map Entry.view).Perm t'.view := (StableSort.sort_perm _ _).map _
  refine List.Perm.eq_of_pairwise ?_ (hties.pairwise_ranked h)
    ((hties.of_perm hview).pairwise_ranked h') (hperm.trans (hview.trans hperm'.symm))
  intro a b _ _ hab hba
  exact absurd hba (FloatOrder.not_lt_of_lt hab)

theorem TieFree.bestScore_eq (hties : t.TieFree) (hview : t.view.Perm t'.view) :
    t.bestScore = t'.bestScore := by
  have hperm : (t.entries.map (·.score)).Perm (t'.entries.map (·.score)) := by
    rw [← view_scores, ← view_scores]
    exact hview.map _
  have hdistinct : (t.entries.map (·.score)).Pairwise fun x y ↦ x < y ∨ y < x :=
    List.pairwise_map.2 hties
  have hsymm : Std.Symm fun x y : Float ↦ x < y ∨ y < x := ⟨fun _ _ hxy ↦ hxy.symm⟩
  rw [Table.bestScore_eq, Table.bestScore_eq]
  refine hperm.foldl_eq' (fun x hx y hy z ↦ ?_) _
  by_cases heq : x = y
  · rw [heq]
  · rcases hdistinct.forall hx hy heq with hxy | hyx
    · exact better_comm hxy z
    · exact (better_comm hyx z).symm

end

end Table

end CovarianceSearch
