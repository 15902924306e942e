import CovarianceSearch.Proofs.Discovery.Form
import CovarianceSearch.Proofs.Document.Json.RoundTrip
import CovarianceSearch.Proofs.Search.Progression
import CovarianceSearch.Proofs.Search.Truncation

namespace CovarianceSearch

namespace Search

variable {M : Type} [Model M] {search : Search M} {xs ys : List Float} {cancelled : ℕ → Bool}
  {deviates : ℕ → Deviates} {depth : ℕ} {batches : List (List KernelTree)} {s : State} {r : Run}

theorem Reaches.lt_size (hnamed : search.IsNamed)
    (h : search.Reaches xs ys cancelled deviates depth batches s) : depth < s.table.size := by
  induction h with
  | initial h =>
    rw [initial_eq] at h
    cases h
    exact Nat.zero_lt_one
  | @depth _ _ s s' pass hs _ _ hc ih =>
    have hfresh := List.length_pos_of_ne_nil hc.fresh_ne_nil
    have hentries := congrArg List.length (hc.entries_eq (hs.isSound hnamed).keys)
    rw [List.length_append, List.length_map, List.length_zip, ← hc.settled.length_eq] at hentries
    change s'.table.size = s.table.size + _ at hentries
    omega

omit [Model M] in
theorem IsSound.isWritable_of_mem (h : search.IsSound depth batches s)
    (hdepth : depth < UInt64.size) : ∀ e ∈ s.table.entries, e.IsWritable := by
  intro e he
  obtain ⟨c, hc, hkeeps⟩ := h.keeps e he
  constructor
  case depth_lt => exact (h.depth_le e he).trans_lt hdepth
  case isExpanded => exact hkeeps.tree ▸ hc.valid.isExpanded_simplify

theorem Exits.isWritable_termination (hnamed : search.IsNamed)
    (h : search.Exits xs ys cancelled deviates r) (hsize : r.final.table.size < 2 ^ 63) :
    r.termination.IsWritable := by
  have hword : 2 ^ 63 ≤ UInt64.size := by decide
  cases h with
  | maxDepthReached hs =>
    have hdepth := (hs.lt_size hnamed).trans hsize
    have hmin : Int64.minValue.toInt = -2 ^ 63 := by decide
    have hmax : Int64.maxValue.toInt = 2 ^ 63 - 1 := by decide
    simp only [Termination.IsWritable, fitsWord, hmin, hmax, Bool.and_eq_true, decide_eq_true_eq]
    omega
  | cancelled hs => exact ((hs.lt_size hnamed).trans hsize).trans_le hword
  | earlyStopping hstarts =>
    obtain ⟨batches, hs⟩ := hstarts.reaches
    exact ((hs.lt_size hnamed).trans hsize).trans_le hword
  | emptySearchSpace hstarts =>
    obtain ⟨batches, hs⟩ := hstarts.reaches
    exact ((hs.lt_size hnamed).trans hsize).trans_le hword

end Search

namespace Discovery

open Search

variable {M : Type} [Model M] {search : Search M} {xs ys : List Float} {cancelled : ℕ → Bool}
  {deviates : ℕ → Deviates} {r : Run} {findBest : ℕ} {startedAt finishedAt : String}

theorem isWritable_ofRun (hnamed : search.IsNamed)
    (hr : search.run xs ys cancelled deviates = .ok r) (hsize : r.final.table.size < 2 ^ 63) :
    (ofRun findBest startedAt finishedAt r).IsWritable := by
  have hword : 2 ^ 63 ≤ UInt64.size := by decide
  obtain ⟨depth, batches, s, hs, hends⟩ := exists_ends_of_run hr
  have hdepth := hs.lt_size hnamed
  rw [← hends.table_eq] at hdepth
  constructor
  case kernels =>
    intro e he
    have he : e ∈ r.final.table.entries :=
      (StableSort.sort_perm _ _).mem_iff.1 (List.mem_of_mem_take he)
    rw [hends.table_eq] at he
    exact (hs.isSound hnamed).isWritable_of_mem (by omega) e he
  case termination => exact (exits_of_run hnamed hr).isWritable_termination hnamed hsize
  case explored_lt => exact hsize.trans_le hword

/-- A run that starts a depth begins its progression with the score of a kernel that has none, and
one that does not has found this kernel only. -/
theorem infinity_mem_reals_ofRun (hnamed : search.IsNamed)
    (hr : search.run xs ys cancelled deviates = .ok r) (hbest : findBest ≠ 0) :
    Entry.infinity ∈ (ofRun findBest startedAt finishedAt r).toDatum.reals := by
  obtain ⟨depth, batches, s, hs, hends⟩ := exists_ends_of_run hr
  have hlength : depth ≤ r.final.progression.length := by
    rcases hends.final_eq with hfinal | hfinal
    · rw [hfinal, hs.length_progression]
    · rw [hfinal, hs.length_started]
      exact Nat.le_succ depth
  rw [reals_toDatum, List.mem_append, List.mem_append]
  cases hs with
  | initial hinitial =>
    rw [initial_eq] at hinitial
    cases hinitial
    obtain ⟨e, he, -, hhead⟩ := Table.exists_head?_best (t := r.final.table)
      (by rw [hends.table_eq]; exact List.cons_ne_nil _ _) hbest
    rw [hends.table_eq] at he
    obtain rfl := List.mem_singleton.1 he
    refine .inl (List.mem_flatMap.2 ⟨_, List.mem_of_mem_head? hhead, ?_⟩)
    rw [Entry.reals_toDatum]
    exact List.mem_cons_self
  | depth =>
    obtain ⟨x, rest, hrest⟩ :=
      List.exists_cons_of_length_pos (Nat.lt_of_lt_of_le (Nat.succ_pos _) hlength)
    have hfirst := ((exits_of_run hnamed hr).progressionInvariant hnamed).first
    rw [hrest] at hfirst
    obtain rfl : x = Entry.infinity := hfirst x rfl
    refine .inr (.inl ?_)
    change Entry.infinity ∈ r.final.progression
    rw [hrest]
    exact List.mem_cons_self

/-- No result of a run is read back from its document. The starting kernel is not scored, so an
infinite score is among its numbers. It is written as null, and null is not read as a score. With
finite numbers in place of such ones nothing of the result is lost, as long as the table has no more
entries than any memory can hold. -/
theorem write_then_read_ofRun {f : Format} (hf : f.KeepsData) {config : Config}
    {backend : Backend M} {metric : Metric M}
    (hcreate : Search.create config backend metric = .ok search)
    (hr : search.run xs ys cancelled deviates = .ok r) (hsize : r.final.table.size < 2 ^ 63)
    (startedAt finishedAt : String) {d : Discovery}
    (hd : d = ofRun config.search.findBest startedAt finishedAt r) :
    Entry.infinity ∈ d.toDatum.reals ∧
      (∃ text, d.write f = .ok text ∧ f.read? text = some d.toDatum.settled ∧
        read? f text = none) ∧
      ∀ g : Float → Float, ∃ text, (d.mapReals g).write f = .ok text ∧
        read? f text =
          if ∀ x ∈ d.toDatum.reals, (g x).isFinite then some (d.mapReals g) else none := by
  obtain ⟨hnamed, -⟩ := create_eq_ok hcreate
  have hwritable : d.IsWritable := hd ▸ isWritable_ofRun hnamed hr hsize
  have hinfinity : Entry.infinity ∈ d.toDatum.reals :=
    hd ▸ infinity_mem_reals_ofRun hnamed hr (findBest_ne_zero hcreate)
  refine ⟨hinfinity, ?_, fun g ↦ ?_⟩
  · obtain ⟨text, htext, hread⟩ := hwritable.exists_write hf
    refine ⟨text, htext, hread, (hwritable.read?_eq hread).trans (if_neg fun hfinite ↦ ?_)⟩
    exact absurd (hfinite _ hinfinity) (by rw [isFinite_infinity]; exact Bool.false_ne_true)
  · have hwritable := hwritable.mapReals g
    obtain ⟨text, htext, hread⟩ := hwritable.exists_write hf
    refine ⟨text, htext, (hwritable.read?_eq hread).trans ?_⟩
    simp only [reals_toDatum_mapReals, List.forall_mem_map]

theorem contentSearch_write_then_read :
    Format.json.KeepsData ∧
      Search.create contentConfig smallBackend smallMetric = .ok contentSearch ∧
      ∃ r d, contentSearch.run [0.0, 1.0] [0.0, 1.0] (fun _ ↦ false) (fun _ _ _ ↦ 0.0) = .ok r ∧
        r.final.table.size < 2 ^ 63 ∧ d = ofRun contentConfig.search.findBest "start" "end" r ∧
        d.progression = [Entry.infinity, 5.0, 5.0] ∧
        (∃ text, d.write .json = .ok text ∧ read? .json text = none) ∧
        ∃ text, (d.mapReals fun _ ↦ 1.0).write .json = .ok text ∧
          read? .json text = some (d.mapReals fun _ ↦ 1.0) := by
  have hcreate := create_contentConfig
  obtain ⟨r, hr, hprogression, hsize⟩ : ∃ r, contentSearch.run [0.0, 1.0] [0.0, 1.0]
      (fun _ ↦ false) (fun _ _ _ ↦ 0.0) = .ok r ∧
        r.final.progression = [Entry.infinity, 5.0, 5.0] ∧ r.final.table.size < 2 ^ 63 := by
    decide +kernel
  obtain ⟨-, ⟨text, htext, -, hnone⟩, hsome⟩ :=
    write_then_read_ofRun Json.keepsData hcreate hr hsize "start" "end" rfl
  obtain ⟨text', htext', hread⟩ := hsome fun _ ↦ 1.0
  rw [if_pos fun _ _ ↦ by decide] at hread
  exact ⟨Json.keepsData, hcreate, r, _, hr, hsize, rfl, hprogression, ⟨text, htext, hnone⟩, text',
    htext', hread⟩

end Discovery

end CovarianceSearch
