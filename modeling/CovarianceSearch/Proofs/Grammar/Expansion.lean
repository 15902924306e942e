import CovarianceSearch.Proofs.Grammar.Agreement
import CovarianceSearch.Proofs.Search.Fresh

namespace CovarianceSearch

variable {g : Grammar} {e : Entry} {cs : List Candidate}

theorem Entry.Keeps.expand_eq {e' : Entry} {c : Candidate} (h : e.Keeps c) (h' : e'.Keeps c) :
    g.expand e = g.expand e' := by
  have hkey : e.key = e'.key := Except.ok.inj (h.key.symm.trans h'.key)
  rw [Grammar.expand, Grammar.expand, hkey, h.tree, h'.tree, h.expression, h'.expression]

namespace Grammar

theorem expandText_of_parse (hg : g.palette.IsNamed) {text : String} {x : Expression}
    (hx : Expression.parse text = .ok x) : g.expandText text =
      .ok ((g.palette.expressionSteps x).map fun s ↦ ⟨s.toTree, some s.text⟩) := by
  have hprintable := Expression.printable_of_parse hx
  rw [← expandText_text hg hprintable, expandText, expandText,
    Palette.extendText_of_parse hg hx, Palette.extendText_text hg hprintable]

theorem expand_cases (hg : g.palette.IsNamed) (h : g.expand e = .ok cs) :
    (g.kind = .tree ∧ cs = (g.palette.treeSteps e.tree).map (⟨·, none⟩)) ∨
      (g.kind = .text ∧ ∃ text x, e.expression = some text ∧ Expression.parse text = .ok x ∧
        cs = (g.palette.expressionSteps x).map fun s ↦ ⟨s.toTree, some s.text⟩) := by
  unfold expand at h
  split at h
  · next hkind =>
    obtain ⟨trees, htrees, h⟩ := Outcome.bind_eq_ok_iff.1 h
    unfold Palette.expandTree at htrees
    split at htrees
    · cases htrees
      cases h
      exact .inl ⟨hkind, rfl⟩
    · cases htrees
  · next text hkind hexpression =>
    obtain ⟨x, hx⟩ : ∃ x, Expression.parse text = .ok x := by
      obtain ⟨_, hextend, -⟩ := Outcome.bind_eq_ok_iff.1 h
      obtain ⟨x, hx, -⟩ := Outcome.bind_eq_ok_iff.1 hextend
      exact ⟨x, Outcome.mapError_eq_ok_iff.1 hx⟩
    rw [expandText_of_parse hg hx] at h
    cases h
    exact .inr ⟨hkind, text, x, hexpression, hx, rfl⟩
  · cases h

theorem exists_eq_seeds_append (hg : g.palette.IsNamed) (h : g.expand e = .ok cs) :
    ∃ rest, cs = g.palette.active.map g.seed ++ rest := by
  rcases expand_cases hg h with ⟨hkind, rfl⟩ | ⟨hkind, text, x, -, -, rfl⟩
  · have hseed : g.seed = fun k ↦ ⟨.leaf k, none⟩ := by
      funext k
      rw [seed, hkind]
    rw [Palette.treeSteps, List.append_assoc, List.map_append, List.map_map, hseed]
    exact ⟨_, rfl⟩
  · have hseed : g.seed = fun k ↦ ⟨.leaf k, some k.name⟩ := by
      funext k
      rw [seed, hkind]
    rw [Palette.expressionSteps, List.append_assoc, List.map_append, List.map_map, hseed]
    exact ⟨_, rfl⟩

end Grammar

end CovarianceSearch
