import CovarianceSearch.Table
import Mathlib.Data.List.Nodup

namespace CovarianceSearch

def Entry.scored (e : Entry) (score : Float) (params : Option Assignment) : Entry :=
  { e with score := score, params := params, evaluated := true }

namespace Table

variable {t : Table}

theorem contains_iff {key : String} : t.contains key = true ↔ key ∈ t.keys := by
  simp [contains, keys]

theorem insert_of_not_mem {e : Entry} (h : e.key ∉ t.keys) :
    (t.insert e).1 = ⟨t.entries ++ [e]⟩ := by
  rw [insert, if_neg (mt contains_iff.1 h)]

theorem insertAll_eq {es : List Entry} (h : (t.keys ++ es.map (·.key)).Nodup) :
    t.insertAll es = ⟨t.entries ++ es⟩ := by
  induction es generalizing t with
  | nil => simp [insertAll]
  | cons e es ih =>
    have he : e.key ∉ t.keys := fun hmem ↦ by
      have hdisjoint := (List.nodup_append.1 h).2.2 _ hmem e.key (by simp)
      exact hdisjoint rfl
    have hkeys : (Table.keys ⟨t.entries ++ [e]⟩ ++ es.map (·.key)).Nodup := by
      simpa [keys] using h
    rw [insertAll, List.foldl_cons, insert_of_not_mem he]
    simpa [insertAll] using ih hkeys

theorem map_scored_of_not_mem {es : List Entry} {key : String} (h : key ∉ es.map (·.key))
    (score : Float) (params : Option Assignment) :
    (es.map fun e ↦ if e.key = key then e.scored score params else e) = es := by
  refine (List.map_congr_left fun e he ↦ if_neg fun hkey ↦ h ?_).trans (List.map_id' es)
  exact List.mem_map.2 ⟨e, he, hkey⟩

/-- Scoring changes the one entry with the key, if it is not scored yet. -/
theorem record_eq {before after : List Entry} {e : Entry} {score : Float}
    {params : Option Assignment} (hkeys : (t.keys).Nodup)
    (ht : t.entries = before ++ e :: after) (he : e.evaluated = false) :
    (t.record e.key score params).1 = ⟨before ++ e.scored score params :: after⟩ := by
  have hnodup : (before.map (·.key) ++ e.key :: after.map (·.key)).Nodup := by
    simpa [keys, ht] using hkeys
  obtain ⟨-, hafter, hbefore⟩ := List.nodup_append.1 hnodup
  have hafter := (List.nodup_cons.1 hafter).1
  have hbefore : e.key ∉ before.map (·.key) := fun h ↦ hbefore _ h _ List.mem_cons_self rfl
  have hfind : t.find? e.key = some e := by
    rw [find?, ht, List.find?_append, List.find?_eq_none.2, Option.none_or, List.find?_cons_of_pos]
    · simp
    · exact fun b hb ↦ by simpa using fun h ↦ hbefore (List.mem_map.2 ⟨b, hb, h⟩)
  have hmap : (t.entries.map fun b ↦ if b.key = e.key then b.scored score params else b) =
      before ++ e.scored score params :: after := by
    rw [ht, List.map_append, List.map_cons, map_scored_of_not_mem hbefore,
      map_scored_of_not_mem hafter, if_pos rfl]
  obtain ⟨key, tree, depth, score', params', expression, evaluated⟩ := e
  obtain rfl : evaluated = false := he
  rw [record, hfind]
  exact congrArg Table.mk hmap

end Table

end CovarianceSearch
