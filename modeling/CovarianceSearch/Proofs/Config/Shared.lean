import CovarianceSearch.Config.Shared
import CovarianceSearch.Proofs.Outcome

namespace CovarianceSearch

namespace Config

variable {c d : Config}

theorem validate_of_sections (hsearch : c.search.validate = .ok ())
    (hgrammar : c.grammar.validate = .ok ()) (hevaluation : c.evaluation.validate = .ok ())
    (hpreprocessing : c.preprocessing.validate = .ok ()) : c.validate = .ok () := by
  rw [validate, hsearch, hgrammar, hevaluation, hpreprocessing]
  rfl

theorem validate_of_search {c : SearchConfig} (hc : c.validate = .ok ()) :
    ({ search := c } : Config).validate = .ok () := by
  have hgrammar : ({} : GrammarConfig).validate = .ok () := by decide
  have hevaluation : ({} : EvaluationConfig).validate = .ok () := by decide
  exact validate_of_sections hc hgrammar hevaluation rfl

theorem validate_default : ({} : Config).validate = .ok () := validate_of_search rfl

theorem checked_eq_ok_iff : c.checked = .ok d ↔ c = d ∧ d.validate = .ok () := by
  rw [checked, Outcome.bind_eq_ok_iff]
  constructor
  · intro h
    obtain ⟨_, hc, hd⟩ := h
    cases hd
    exact ⟨rfl, hc⟩
  · intro h
    obtain ⟨rfl, hc⟩ := h
    exact ⟨(), hc, rfl⟩

end Config

namespace SharedConfig

variable {s : SharedConfig} {a : Call} {c : Config}

namespace Call

/-- The configuration that a call makes out of the one in use, be it valid or not. -/
def made? (c : Config) : Call → Option Config
  | .file format text =>
    text.bind fun text ↦ (format.read? text).bind (Config.ofDatum? format.convention)
  | .layers merged => merged.toOption
  | .edit f => f c

end Call

def Makes (s : SharedConfig) (a : Call) (c : Config) : Prop :=
  a.made? s.config = some c ∧ c.validate = .ok ()

theorem makes_file_iff {format : Format} {text : Option String} :
    s.Makes (.file format text) c ↔ Config.load format text = .ok c := by
  cases text with
  | none => simp [Makes, Call.made?, Config.load]
  | some text =>
    simp only [Makes, Call.made?, Config.load, Option.bind_some]
    cases (format.read? text).bind (Config.ofDatum? format.convention) with
    | none => simp
    | some d => simp [Config.checked_eq_ok_iff]

theorem makes_layers_iff {merged : Except Error Config} :
    s.Makes (.layers merged) c ↔ merged.bind Config.checked = .ok c := by
  cases merged with
  | error e => simp [Makes, Call.made?, Except.bind, Except.toOption]
  | ok d => simp [Makes, Call.made?, Except.bind, Except.toOption, Config.checked_eq_ok_iff]

theorem call_of_isSpoiled (hs : s.isSpoiled = true) :
    (∃ refusal, (s.call a).2 = .error refusal) ∧ (s.call a).1 = s := by
  have hreplace (c : Config) : s.replace c = (s, .error .spoiled) := if_pos hs
  cases a with
  | file format text =>
    cases h : Config.load format text <;> simp [call, h, hreplace]
  | layers merged =>
    cases h : merged.bind Config.checked <;> simp [call, h, hreplace]
  | edit f => simp [call, hs]

/-- All that a call can do while the lock is in order. -/
theorem call_of_not_isSpoiled (hs : s.isSpoiled = false) :
    (∃ c, s.Makes a c ∧ s.call a = ({ s with config := c }, .ok ())) ∨
      (∀ c, ¬ s.Makes a c) ∧ (∃ refusal, (s.call a).2 = .error refusal) ∧
        (s.call a).1.config = s.config := by
  have hreplace (c : Config) : s.replace c = ({ s with config := c }, .ok ()) :=
    if_neg (by simp [hs])
  cases a with
  | file format text =>
    cases h : Config.load format text with
    | error e =>
      refine .inr ⟨fun c hc ↦ ?_, by simp [call, h]⟩
      exact nomatch h ▸ makes_file_iff.1 hc
    | ok c => exact .inl ⟨c, makes_file_iff.2 h, by simp [call, h, hreplace]⟩
  | layers merged =>
    cases h : merged.bind Config.checked with
    | error e =>
      refine .inr ⟨fun c hc ↦ ?_, by simp [call, h]⟩
      exact nomatch h ▸ makes_layers_iff.1 hc
    | ok c => exact .inl ⟨c, makes_layers_iff.2 h, by simp [call, h, hreplace]⟩
  | edit f =>
    cases h : f s.config with
    | none =>
      refine .inr ⟨fun c hc ↦ ?_, by simp [call, hs, h]⟩
      exact nomatch h.symm.trans hc.1
    | some c =>
      cases hc : c.checked with
      | error e =>
        refine .inr ⟨fun d hd ↦ ?_, by simp [call, hs, h, hc]⟩
        have hcd : c = d := Option.some_inj.1 (h.symm.trans hd.1)
        exact nomatch hc.symm.trans (Config.checked_eq_ok_iff.2 ⟨hcd, hd.2⟩)
      | ok d =>
        obtain ⟨rfl, hvalid⟩ := Config.checked_eq_ok_iff.1 hc
        exact .inl ⟨c, ⟨h, hvalid⟩, by simp [call, hs, h, hc]⟩

def accepted (s : SharedConfig) : List Call → List Config
  | [] => []
  | a :: calls =>
    ((s.call a).2.toOption.bind fun _ ↦ a.made? s.config).toList ++ (s.call a).1.accepted calls

theorem call_keeps_valid (hs : s.config.validate = .ok ()) (a : Call) :
    (s.call a).1.config.validate = .ok () := by
  cases h : s.isSpoiled with
  | true => rwa [(call_of_isSpoiled h).2]
  | false =>
    obtain ⟨c, hc, heq⟩ | ⟨_, _, heq⟩ := call_of_not_isSpoiled (a := a) h
    · rw [heq]
      exact hc.2
    · rwa [heq]

theorem runFrom_keeps_valid (hs : s.config.validate = .ok ()) (calls : List Call) :
    (s.runFrom calls).config.validate = .ok () := by
  induction calls generalizing s with
  | nil => exact hs
  | cons a calls ih => exact ih (call_keeps_valid hs a)

theorem config_call (s : SharedConfig) (a : Call) :
    (s.call a).1.config =
      ((s.call a).2.toOption.bind fun _ ↦ a.made? s.config).getD s.config := by
  cases h : s.isSpoiled with
  | true =>
    obtain ⟨⟨refusal, hrefusal⟩, heq⟩ := call_of_isSpoiled (a := a) h
    rw [hrefusal, heq]
    rfl
  | false =>
    obtain ⟨c, hc, heq⟩ | ⟨_, ⟨refusal, hrefusal⟩, heq⟩ := call_of_not_isSpoiled (a := a) h
    · rw [heq, hc.1]
      rfl
    · rw [hrefusal, heq]
      rfl

theorem config_runFrom (s : SharedConfig) (calls : List Call) :
    (s.runFrom calls).config = (s.accepted calls).getLast?.getD s.config := by
  induction calls generalizing s with
  | nil => rfl
  | cons a calls ih =>
    change ((s.call a).1.runFrom calls).config = _
    rw [ih, config_call s a, accepted, List.getLast?_append]
    cases ((s.call a).1.accepted calls).getLast? with
    | some c => rfl
    | none => cases (s.call a).2.toOption.bind fun _ ↦ a.made? s.config <;> rfl

/-- After any calls the configuration in use is valid and the last that a call has succeeded with.
A further call succeeds if the lock is in order and what it makes is valid; a call that does not
succeed changes nothing. -/
theorem config_run (calls : List Call) (a : Call) :
    (run calls).config.validate = .ok () ∧
      (run calls).config = (accepted {} calls).getLast?.getD {} ∧
      ((∃ c, (run calls).isSpoiled = false ∧ (run calls).Makes a c ∧
          ((run calls).call a).2 = .ok () ∧ ((run calls).call a).1.config = c) ∨
        ((run calls).isSpoiled = true ∨ ∀ c, ¬ (run calls).Makes a c) ∧
          (∃ refusal, ((run calls).call a).2 = .error refusal) ∧
          ((run calls).call a).1.config = (run calls).config) := by
  refine ⟨runFrom_keeps_valid Config.validate_default calls, config_runFrom {} calls, ?_⟩
  cases h : (run calls).isSpoiled with
  | true =>
    obtain ⟨hrefusal, heq⟩ := call_of_isSpoiled (a := a) h
    exact .inr ⟨.inl rfl, hrefusal, congrArg config heq⟩
  | false =>
    obtain ⟨c, hc, heq⟩ | ⟨hno, hrefusal, heq⟩ := call_of_not_isSpoiled (a := a) h
    · exact .inl ⟨c, rfl, hc, by rw [heq], by rw [heq]⟩
    · exact .inr ⟨.inr hno, hrefusal, heq⟩

theorem config_run_spoiled :
    let five : Config := { search := { findBest := 5 } }
    let nothing : Config := { search := { findBest := 0 } }
    let calls : List Call :=
      [.edit fun _ ↦ some five, .layers (.ok nothing), .edit fun _ ↦ none]
    (run calls).isSpoiled = true ∧ (run calls).config = five ∧ five.validate = .ok () ∧
      (∃ refusal, ((run calls).call (.layers (.ok {}))).2 = .error refusal) ∧
      ((run calls).call (.layers (.ok {}))).1.config = five := by
  intro five nothing calls
  have hfive : five.checked = .ok five :=
    Config.checked_eq_ok_iff.2 ⟨rfl, Config.validate_of_search rfl⟩
  have hnothing : nothing.checked = .error (.config .nothingToFind) := rfl
  have hspoiled : (run calls).isSpoiled = true := by
    simp [calls, run, runFrom, call, hfive, hnothing, Except.bind]
  have haccepted : accepted {} calls = [five] := by
    simp [calls, accepted, call, Call.made?, hfive, hnothing, Except.bind, Except.toOption]
  obtain ⟨hvalid, hconfig, h⟩ := config_run calls (.layers (.ok {}))
  have hconfig : (run calls).config = five := by rw [hconfig, haccepted]; rfl
  rw [hspoiled] at h
  obtain ⟨_, hs, _⟩ | ⟨_, hrefusal, heq⟩ := h
  · cases hs
  · exact ⟨hspoiled, hconfig, hconfig ▸ hvalid, hrefusal, heq.trans hconfig⟩

end SharedConfig
end CovarianceSearch
