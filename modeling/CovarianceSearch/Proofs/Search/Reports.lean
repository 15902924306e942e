import CovarianceSearch.Proofs.Search.Progression

namespace CovarianceSearch

def Termination.isWithinDepth : Termination → Bool
  | .emptySearchSpace _ | .earlyStopping .. => true
  | .maxDepthReached _ | .cancelled _ => false

def Table.upTo (t : Table) (n : ℕ) : Table := ⟨t.entries.take n⟩

theorem Table.upTo_eq {t t' : Table} (h : t.entries <+: t'.entries) : t'.upTo t.size = t := by
  obtain ⟨new, hnew⟩ := h
  rw [upTo, ← hnew, size, List.take_left]

theorem Table.upTo_congr {t t' : Table} (h : t.entries <+: t'.entries) {n : ℕ} (hn : n ≤ t.size) :
    t'.upTo n = t.upTo n := by
  obtain ⟨new, hnew⟩ := h
  rw [upTo, upTo, ← hnew, List.take_append_of_le_length hn]

namespace Search

def evaluatedEvents (new : List Entry) : List Event :=
  new.mapIdx fun i e ↦ .evaluated e.key e.score (i + 1) new.length

/-- The size of a table after a number of depths, of which `totals` counts the new entries. -/
def sizeAfter (totals : List ℕ) (depth : ℕ) : ℕ := 1 + (totals.take depth).sum

variable {M : Type} (search : Search M)

def depthEvents (t : Table) (depth m n : ℕ) : List Event :=
  .started depth (((t.upTo m).best search.config.kernelsPerDepth).map (·.key)) ::
    (evaluatedEvents ((t.upTo n).entries.drop m) ++ [.completed depth (t.upTo n).bestScore n])

def allEvents (t : Table) (totals : List ℕ) : List Event :=
  (List.range totals.length).flatMap fun depth ↦
    search.depthEvents t depth (sizeAfter totals depth) (sizeAfter totals (depth + 1))

theorem sizeAfter_le (totals : List ℕ) (depth : ℕ) : sizeAfter totals depth ≤ 1 + totals.sum := by
  have hle := (List.take_sublist depth totals).sum_le_sum (by simp)
  rw [sizeAfter]
  omega

theorem sizeAfter_append {totals : List ℕ} {depth : ℕ} (h : depth ≤ totals.length) (n : ℕ) :
    sizeAfter (totals ++ [n]) depth = sizeAfter totals depth := by
  rw [sizeAfter, sizeAfter, List.take_append_of_le_length h]

theorem sizeAfter_length (totals : List ℕ) : sizeAfter totals totals.length = 1 + totals.sum := by
  rw [sizeAfter, List.take_length]

theorem allEvents_append (t : Table) (totals : List ℕ) (n : ℕ) :
    search.allEvents t (totals ++ [n]) = search.allEvents t totals ++
      search.depthEvents t totals.length (1 + totals.sum) (1 + totals.sum + n) := by
  have hlast : sizeAfter (totals ++ [n]) (totals.length + 1) = 1 + totals.sum + n := by
    simp [sizeAfter, Nat.add_assoc]
  have hearlier : ∀ depth ∈ List.range totals.length,
      search.depthEvents t depth (sizeAfter (totals ++ [n]) depth)
          (sizeAfter (totals ++ [n]) (depth + 1)) =
        search.depthEvents t depth (sizeAfter totals depth) (sizeAfter totals (depth + 1)) := by
    intro depth hdepth
    have hlt := List.mem_range.1 hdepth
    rw [sizeAfter_append (by omega), sizeAfter_append (by omega)]
  rw [allEvents, allEvents, List.length_append, List.length_singleton, List.range_succ,
    List.flatMap_append, List.flatMap_congr hearlier, List.flatMap_singleton, hlast,
    sizeAfter_append (Nat.le_refl _), sizeAfter_length]

/-- Entries that come up later do not change what has been reported. -/
theorem allEvents_congr {t t' : Table} {totals : List ℕ} (h : t.entries <+: t'.entries)
    (hsize : t.size = 1 + totals.sum) : search.allEvents t' totals = search.allEvents t totals := by
  have hupTo (depth : ℕ) : t'.upTo (sizeAfter totals depth) = t.upTo (sizeAfter totals depth) :=
    Table.upTo_congr h (hsize ▸ sizeAfter_le totals depth)
  simp only [allEvents, depthEvents, hupTo]

variable {search} {depth : ℕ} {s s' : State} {pass : Pass} {batches : List (List KernelTree)}

/-- A completed depth reports its frontier, its new entries and the table that it leaves. -/
theorem Completes.events_eq [Model M] {xs ys : List Float} {deviates : Deviates}
    (h : search.Completes xs ys deviates depth s pass s') (hkeys : s.table.keys.Nodup) :
    s'.events = s.events ++ search.depthEvents s'.table depth s.table.size s'.table.size := by
  have hentries := h.entries_eq hkeys
  have hgrown : s.table.entries <+: s'.table.entries := ⟨_, hentries.symm⟩
  have hnew : s'.table.entries.drop s.table.size =
      (pass.fresh.zip pass.evaluations).map fun r ↦ r.1.scored r.2.score r.2.params := by
    rw [hentries, Table.size, List.drop_left]
  have hlength : (pass.fresh.zip pass.evaluations).length = pass.evaluations.length := by
    rw [List.length_zip, h.settled.length_eq, Nat.min_self]
  have hevaluated : evaluatedEvents (s'.table.entries.drop s.table.size) =
      (pass.fresh.zip pass.evaluations).zipIdx.map fun r ↦
        .evaluated r.1.1.key r.1.2.score (r.2 + 1) pass.evaluations.length := by
    rw [hnew, evaluatedEvents, List.mapIdx_eq_zipIdx_map, List.zipIdx_map, List.map_map,
      List.length_map, hlength]
    rfl
  rw [h.events_eq_append, depthEvents, Table.upTo_eq hgrown, Table.upTo_eq List.prefix_rfl,
    hevaluated]
  simp [started, Search.frontier]

theorem mem_evaluatedEvents {new : List Entry} {event : Event}
    (h : event ∈ evaluatedEvents new) :
    ∃ key score i, event = .evaluated key score i new.length := by
  obtain ⟨i, hi, rfl⟩ := List.mem_mapIdx.1 h
  exact ⟨_, _, _, rfl⟩

theorem eq_of_completed_mem_allEvents {t : Table} {totals : List ℕ} {best : Float} {size : ℕ}
    (h : .completed depth best size ∈ search.allEvents t totals) :
    depth < totals.length ∧ size = sizeAfter totals (depth + 1) ∧
      best = (t.upTo size).bestScore := by
  obtain ⟨depth', hdepth, hmem⟩ := List.mem_flatMap.1 h
  rcases List.mem_cons.1 hmem with heq | hmem
  · cases heq
  · rcases List.mem_append.1 hmem with hmem | hmem
    · obtain ⟨key, score, i, heq⟩ := mem_evaluatedEvents hmem
      cases heq
    · cases List.mem_singleton.1 hmem
      exact ⟨List.mem_range.1 hdepth, rfl, rfl⟩

variable [Model M] {xs ys : List Float} {cancelled : Nat → Bool} {deviates : Nat → Deviates}
  {batches : List (List KernelTree)}

/-- What has been reported up to a table, where `totals` counts the new entries of every depth. -/
structure Reported (search : Search M) (xs ys : List Float) (cancelled : ℕ → Bool)
    (deviates : ℕ → Deviates) (totals : List ℕ) (t : Table) (events : List Event) : Prop where
  totals_pos : ∀ n ∈ totals, 1 ≤ n
  size_eq : t.size = 1 + totals.sum
  keys_nodup : t.keys.Nodup
  depths : t.entries.tail.map (·.depth) =
    totals.zipIdx.flatMap fun (n, depth) ↦ List.replicate n depth
  events_eq : events = search.allEvents t totals
  /-- The tables that are reported on are those that the search has had. -/
  tables : ∀ depth ≤ totals.length, ∃ batches s,
    search.Reaches xs ys cancelled deviates depth batches s ∧
      t.upTo (sizeAfter totals depth) = s.table

theorem Reaches.reported (hnamed : search.IsNamed)
    (h : search.Reaches xs ys cancelled deviates depth batches s) :
    ∃ totals, totals.length = depth ∧
      search.Reported xs ys cancelled deviates totals s.table s.events := by
  induction h with
  | initial h =>
    have hs := h
    rw [initial_eq] at h
    cases h
    refine ⟨[], rfl, by simp, rfl, by simp [Table.keys], rfl, rfl, fun depth hdepth ↦ ?_⟩
    obtain rfl := Nat.le_zero.1 hdepth
    exact ⟨[], _, .initial hs, rfl⟩
  | @depth depth batches s s' pass h hbudget hgoes hc ih =>
    -- The table only grows at its end, which leaves the tables of the earlier depths as they were.
    obtain ⟨totals, rfl, hreported⟩ := ih
    have hkeys := hreported.keys_nodup
    obtain ⟨new, hentries, hnew, hbatch, -⟩ := hc.exists_new hkeys
    have hgrown : s.table.entries <+: s'.table.entries := ⟨new, hentries.symm⟩
    have hsize : s'.table.size = 1 + totals.sum + new.length := by
      rw [Table.size, hentries, List.length_append, ← Table.size, hreported.size_eq]
    refine ⟨totals ++ [new.length], by simp, ?_⟩
    constructor
    case totals_pos =>
      have hlength : new.length = pass.fresh.length := by
        simpa [Pass.batch] using congrArg List.length hbatch
      have hpos := List.length_pos_of_ne_nil hc.fresh_ne_nil
      apply List.forall_mem_append.2 ⟨hreported.totals_pos, List.forall_mem_singleton.2 _⟩
      omega
    case size_eq =>
      rw [hsize, List.sum_append, List.sum_singleton, Nat.add_assoc]
    case keys_nodup => exact hc.keys_nodup hkeys
    case depths =>
      have hne : s.table.entries ≠ [] := (h.isSound hnamed).entries_ne_nil
      have hdepth : new.map (·.depth) = List.replicate new.length totals.length := by
        apply List.map_eq_replicate_iff.2
        intro e he
        obtain ⟨c, -, hc⟩ := exists_of_mem_forall₂ hnew he
        exact hc.depth_eq
      rw [hentries, List.tail_append_of_ne_nil hne, List.map_append, hreported.depths, hdepth,
        List.zipIdx_append, List.flatMap_append]
      simp
    case events_eq =>
      rw [hc.events_eq hkeys, hreported.events_eq, allEvents_append, hreported.size_eq, hsize,
        allEvents_congr search hgrown hreported.size_eq]
    case tables =>
      intro depth hdepth
      rw [List.length_append, List.length_singleton] at hdepth
      rcases Nat.lt_or_eq_of_le hdepth with hlt | rfl
      · obtain ⟨batches', s₀, hs₀, hupTo⟩ := hreported.tables depth (by omega)
        refine ⟨batches', s₀, hs₀, ?_⟩
        rw [sizeAfter_append (by omega), ← hupTo]
        exact Table.upTo_congr hgrown (hreported.size_eq ▸ sizeAfter_le totals depth)
      · refine ⟨_, s', h.depth hbudget hgoes hc, ?_⟩
        have hlast : sizeAfter (totals ++ [new.length]) (totals.length + 1) = s'.table.size := by
          rw [hsize]
          simp [sizeAfter, Nat.add_assoc]
        rw [hlast]
        exact Table.upTo_eq List.prefix_rfl

theorem Exits.reported (hnamed : search.IsNamed)
    (h : search.Exits xs ys cancelled deviates r) : ∃ totals events,
      search.Reported xs ys cancelled deviates totals r.final.table events ∧
        r.final.events = events ++ if r.termination.isWithinDepth then
          [.started totals.length ((r.final.table.best search.config.kernelsPerDepth).map (·.key))]
        else [] := by
  cases h with
  | maxDepthReached hs =>
    obtain ⟨totals, -, hreported⟩ := hs.reported hnamed
    exact ⟨totals, _, hreported, (List.append_nil _).symm⟩
  | cancelled hs =>
    obtain ⟨totals, -, hreported⟩ := hs.reported hnamed
    exact ⟨totals, _, hreported, (List.append_nil _).symm⟩
  | earlyStopping hstarts =>
    obtain ⟨batches, hs⟩ := hstarts.reaches
    obtain ⟨totals, rfl, hreported⟩ := hs.reported hnamed
    exact ⟨totals, _, hreported, rfl⟩
  | emptySearchSpace hstarts =>
    obtain ⟨batches, hs⟩ := hstarts.reaches
    obtain ⟨totals, rfl, hreported⟩ := hs.reported hnamed
    exact ⟨totals, _, hreported, rfl⟩

theorem Reported.isLeastScore (hnamed : search.IsNamed) {totals : List ℕ} {t : Table}
    {events : List Event} (h : search.Reported xs ys cancelled deviates totals t events)
    {best : Float} {size : ℕ} (hmem : .completed depth best size ∈ events) :
    (t.upTo size).IsLeastScore best := by
  rw [h.events_eq] at hmem
  obtain ⟨hdepth, rfl, rfl⟩ := eq_of_completed_mem_allEvents hmem
  obtain ⟨batches, s, hs, htable⟩ := h.tables (depth + 1) hdepth
  rw [htable]
  exact (hs.isSound hnamed).isLeastScore

/-- A search reports its depths one after the other. Each is started with the keys of its frontier,
then every new entry is reported with its number and its score, and then the depth is completed. If
the last depth that is started is not completed, nothing else is reported of it. -/
theorem run_reports {config : Config} {backend : Backend M} {metric : Metric M}
    (hcreate : create config backend metric = .ok search) (xs ys : List Float)
    (cancelled : ℕ → Bool) (deviates : ℕ → Deviates) :
    (∀ depth batches s, search.Reaches xs ys cancelled deviates depth batches s →
      ∃ totals, totals.length = depth ∧
        search.Reported xs ys cancelled deviates totals s.table s.events) ∧
    ∀ r, search.run xs ys cancelled deviates = .ok r → ∃ totals events,
      search.Reported xs ys cancelled deviates totals r.final.table events ∧
      (r.final.events = events ++ if r.termination.isWithinDepth then
        [.started totals.length ((r.final.table.best config.search.kernelsPerDepth).map (·.key))]
        else []) ∧
      (∀ depth best size, .completed depth best size ∈ r.final.events →
        (r.final.table.upTo size).IsLeastScore best) ∧
      ∀ findBest startedAt finishedAt,
        (Discovery.ofRun findBest startedAt finishedAt r).explored = 1 + totals.sum := by
  obtain ⟨hnamed, hconfig⟩ := create_eq_ok hcreate
  rw [← hconfig]
  refine ⟨fun depth batches s hs ↦ hs.reported hnamed, fun r hr ↦ ?_⟩
  obtain ⟨totals, events, hreported, hevents⟩ := (exits_of_run hnamed hr).reported hnamed
  refine ⟨totals, events, hreported, hevents, fun depth best size hmem ↦ ?_, fun _ _ _ ↦ ?_⟩
  · rw [hevents] at hmem
    rcases List.mem_append.1 hmem with hmem | hmem
    · exact hreported.isLeastScore hnamed hmem
    · split at hmem
      · cases List.mem_singleton.1 hmem
      · cases hmem
  · exact hreported.size_eq

theorem contentSearch_reports :
    create contentConfig smallBackend smallMetric = .ok contentSearch ∧
      ∃ r totals events,
        contentSearch.run [0.0, 1.0] [0.0, 1.0] (fun _ ↦ false) (fun _ _ _ ↦ 0.0) = .ok r ∧
        contentSearch.Reported [0.0, 1.0] [0.0, 1.0] (fun _ ↦ false) (fun _ _ _ ↦ 0.0) totals
          r.final.table events ∧
        r.final.events = events ++
          [.started totals.length ((r.final.table.best 1).map (·.key))] := by
  have hcreate := create_contentConfig
  obtain ⟨r, hr, hreason, -⟩ := exists_run_contentSearch
  obtain ⟨-, hrun⟩ := run_reports hcreate [0.0, 1.0] [0.0, 1.0] (fun _ ↦ false) fun _ _ _ ↦ 0.0
  obtain ⟨totals, events, hreported, hevents, -⟩ := hrun r hr
  rw [hreason] at hevents
  exact ⟨hcreate, r, totals, events, hr, hreported, hevents⟩

end Search

end CovarianceSearch
