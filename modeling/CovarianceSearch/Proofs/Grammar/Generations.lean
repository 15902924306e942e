import CovarianceSearch.Proofs.Grammar.Agreement
import Mathlib.Logic.Relation

namespace CovarianceSearch.Palette

variable {p : Palette} {s t : String}

/-- One generation: `t` is among the texts that `s` is extended to. -/
def Generates (p : Palette) (s t : String) : Prop := ∃ steps, p.extendText s = .ok steps ∧ t ∈ steps

theorem extendText_of_parse_error {err : Expression.ParseError}
    (h : Expression.parse s = .error err) : p.extendText s = .error (.unparsable err) := by
  rw [extendText, h]
  rfl

theorem exists_extendText_iff (hp : p.IsNamed) :
    (∃ steps, p.extendText s = .ok steps) ↔ ∃ e, Expression.parse s = .ok e := by
  constructor
  · intro h
    obtain ⟨steps, hsteps⟩ := h
    cases h : Expression.parse s with
    | ok e => exact ⟨e, rfl⟩
    | error err =>
      rw [extendText_of_parse_error h] at hsteps
      cases hsteps
  · intro h
    obtain ⟨e, he⟩ := h
    exact ⟨_, extendText_of_parse hp he⟩

theorem extendText_eq_error_iff (hp : p.IsNamed) {fault : GrammarFault} :
    p.extendText s = .error fault ↔
      ∃ err, Expression.parse s = .error err ∧ fault = .unparsable err := by
  cases h : Expression.parse s with
  | ok e => simp [extendText_of_parse hp h]
  | error err => simp [extendText_of_parse_error h, eq_comm]

theorem Generates.exists_parse (hp : p.IsNamed) (h : p.Generates s t) :
    ∃ e, Expression.parse t = .ok e := by
  obtain ⟨steps, hsteps, ht⟩ := h
  obtain ⟨e, he⟩ := (exists_extendText_iff hp).1 ⟨steps, hsteps⟩
  rw [extendText_of_parse hp he] at hsteps
  cases hsteps
  obtain ⟨x, hx, rfl⟩ := List.mem_map.1 ht
  have hprintable := printable_of_mem_expressionSteps hp (Expression.printable_of_parse he) hx
  exact ⟨x, hprintable.parse_text⟩

theorem exists_parse_of_generations (hp : p.IsNamed) (h : Relation.TransGen p.Generates s t) :
    ∃ e, Expression.parse t = .ok e := by
  cases h with
  | single hstep => exact hstep.exists_parse hp
  | tail _ hstep => exact hstep.exists_parse hp

/-- A text is extended exactly if it is an expression, and refused by the reader otherwise. All that
it is extended to can be extended again, through any number of generations. -/
theorem generations_extend (hp : p.IsNamed) (s : String) :
    ((∃ steps, p.extendText s = .ok steps) ↔ ∃ e, Expression.parse s = .ok e) ∧
      (∀ fault, p.extendText s = .error fault ↔
        ∃ err, Expression.parse s = .error err ∧ fault = .unparsable err) ∧
      ∀ t, Relation.TransGen p.Generates s t → ∃ steps, p.extendText t = .ok steps := by
  refine ⟨exists_extendText_iff hp, fun fault ↦ extendText_eq_error_iff hp, fun t ht ↦ ?_⟩
  exact (exists_extendText_iff hp).2 (exists_parse_of_generations hp ht)

def cubic : Palette := ⟨[.polynomial 3, .rbf], [], true⟩

theorem generations_extend_cubic :
    cubic.IsNamed ∧
      Relation.TransGen cubic.Generates "cp(white,linear)"
        "((cp(white, linear)) * rbf) * (polynomial3 + constant)" ∧
      ∃ steps, cubic.extendText "((cp(white, linear)) * rbf) * (polynomial3 + constant)" =
        .ok steps := by
  have hnamed : cubic.IsNamed := by
    intro k hk
    fin_cases hk
    · exact fun h ↦ absurd h (by decide)
    · trivial
  have hfirst : cubic.Generates "cp(white,linear)" "(cp(white, linear)) * rbf" := by
    have he : Expression.parse "cp(white,linear)" =
        .ok (.changePoint (.kernel .white) (.kernel .linear)) := by cbv
    exact ⟨_, extendText_of_parse hnamed he, by decide⟩
  have hsecond : cubic.Generates "(cp(white, linear)) * rbf"
      "((cp(white, linear)) * rbf) * (polynomial3 + constant)" := by
    have he : Expression.parse "(cp(white, linear)) * rbf" =
        .ok (.mul (.changePoint (.kernel .white) (.kernel .linear)) (.kernel .rbf)) := by cbv
    exact ⟨_, extendText_of_parse hnamed he, by decide⟩
  have hgenerations := (Relation.TransGen.single hfirst).tail hsecond
  exact ⟨hnamed, hgenerations, (generations_extend hnamed _).2.2 _ hgenerations⟩

end CovarianceSearch.Palette
