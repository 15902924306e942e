import CovarianceSearch.Proofs.Expression.Derivation
import Mathlib.Data.Set.Function

namespace CovarianceSearch.Expression

theorem injOn_text : Set.InjOn text {e | e.Printable .sum} := by
  intro e he e' he' h
  have hread : parse e.text = .ok e' := by
    rw [h]
    exact he'.parse_text
  exact Except.ok.inj (he.parse_text.symm.trans hread)

/-- What has been read is read again from the text that it is printed as, so expressions that are
read from texts are printed differently if they differ. -/
theorem parse_text_of_parse {s : String} {e : Expression} (h : parse s = .ok e) :
    parse e.text = .ok e ∧ ∀ s' e', parse s' = .ok e' → e' ≠ e → e'.text ≠ e.text := by
  have hprintable := printable_of_parse h
  refine ⟨hprintable.parse_text, ?_⟩
  intro s' e' h' hne htext
  exact hne (injOn_text (printable_of_parse h') hprintable htext)

def laxChange : Expression :=
  .laxMul (.add (.mul (.kernel .linear) (.kernel .rbf))
    (.changePoint (.kernel .white) (.mul (.kernel (.polynomial 3)) (.kernel .rbf))))
    .constant (.polynomial 1)

theorem parse_text_of_parse_laxChange :
    parse "( (linear)*rbf+cp(white ,(polynomial03)*rbf) ) * (constant+polynomial1)" =
        .ok laxChange ∧
      laxChange.text =
        "((linear) * rbf + cp(white, (polynomial3) * rbf)) * (constant + polynomial)" ∧
      parse laxChange.text = .ok laxChange ∧
      parse "(linear) * rbf" = .ok (.mul (.kernel .linear) (.kernel .rbf)) ∧
      (Expression.mul (.kernel .linear) (.kernel .rbf)).text ≠ laxChange.text := by
  have hread :
      parse "( (linear)*rbf+cp(white ,(polynomial03)*rbf) ) * (constant+polynomial1)" =
        .ok laxChange := by
    cbv
  have hother : parse "(linear) * rbf" = .ok (.mul (.kernel .linear) (.kernel .rbf)) := by cbv
  obtain ⟨hagain, hdistinct⟩ := parse_text_of_parse hread
  exact ⟨hread, by decide, hagain, hother, hdistinct _ _ hother (by decide)⟩

end CovarianceSearch.Expression
