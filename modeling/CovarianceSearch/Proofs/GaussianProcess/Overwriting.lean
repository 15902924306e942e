import CovarianceSearch.Proofs.FloatOrder
import CovarianceSearch.Proofs.GaussianProcess

namespace CovarianceSearch.GaussianProcess

def overwriteKnown (values : Assignment) (known : List String) :
    ExceptT Fault (StateM GaussianProcess) Unit :=
  match values.names.find? (· ∉ known) with
  | some name => throw (.fit (.unknownParameter name))
  | none => do
    modify fun m ↦
      { m with kernel := m.kernel.mapParameters fun path v ↦ (values.get? path).elim v floored }
    match values.get? noisePath with
    | some v => modify fun m ↦ { m with noise := floored v }
    | none => return ()

/-- The assignment of values as it goes about its work in the place of a model, which it reads the
known names from in advance. -/
def overwrite (values : Assignment) : ExceptT Fault (StateM GaussianProcess) Unit := do
  overwriteKnown values (← get).parameters.names

def HasParameter (m : GaussianProcess) (name : String) : Prop :=
  name = noisePath ∨ m.kernel.HasParameter "kernel" name

/-- The greater one of `v` and the least value of a parameter is `w`, and it is that least value if
`v` is not a number. -/
structure IsFloored (v w : Float) : Prop where
  nan : v.isNaN = true → w = leastParameter
  eq_or_eq : w = v ∨ w = leastParameter
  least_le : leastParameter ≤ w
  le : v.isNaN = false → v ≤ w

variable {m m' : GaussianProcess} {values : Assignment} {name : String}

theorem run_overwrite (values : Assignment) (m : GaussianProcess) :
    (overwrite values).run.run m =
      match m.assign values with
      | .ok m' => (.ok (), m')
      | .error e => (.error e, m) := by
  change (overwriteKnown values m.parameters.names).run.run m = _
  unfold overwriteKnown assign
  cases values.names.find? (· ∉ m.parameters.names) with
  | some name => rfl
  | none =>
    dsimp only
    cases values.get? noisePath <;> rfl

theorem isFloored_floored (v : Float) : IsFloored v (floored v) := by
  have hleast : leastParameter.isNaN = false := by decide +kernel
  by_cases h : leastParameter < v
  · have hv : floored v = v := if_pos h
    obtain ⟨-, hnumber⟩ := FloatOrder.isNaN_of_lt h
    have hne : v.isNaN ≠ true := Bool.eq_false_iff.1 hnumber
    rw [hv]
    exact ⟨fun hnan ↦ absurd hnan hne, .inl rfl, FloatOrder.le_of_lt h, FloatOrder.le_refl⟩
  · have hv : floored v = leastParameter := if_neg h
    rw [hv]
    exact ⟨fun _ ↦ rfl, .inr rfl, FloatOrder.le_refl hleast,
      fun hnumber ↦ FloatOrder.le_of_not_lt hnumber hleast h⟩

theorem get?_parameters_changed (m : GaussianProcess) (change : String → Float → Float)
    (name : String) :
    (m.changed change).parameters.get? name = (m.parameters.get? name).map (change name) := by
  rw [parameters, parameters_changed, parameters, Assignment.get?_insert, Assignment.get?_insert]
  by_cases h : name = noisePath
  · rw [if_pos h, if_pos h, h]
    rfl
  · rw [if_neg h, if_neg h, Assignment.get?_ofList_map]

theorem hasParameter_iff (hm : m.kernel.IsRecorded) :
    m.HasParameter name ↔ name ∈ m.parameters.names := by
  rw [mem_names_parameters, Kernel.parameters, Kernel.mem_names_parametersBelow_iff hm]
  rfl

theorem exists_assign_eq_unknownParameter
    (h : ∃ name ∈ values.names, name ∉ m.parameters.names) :
    ∃ name ∈ values.names, name ∉ m.parameters.names ∧
      (∀ n ∈ values.names, n ∉ m.parameters.names → name ≤ n) ∧
      m.assign values = .error (.fit (.unknownParameter name)) := by
  have hsome : (values.names.find? (· ∉ m.parameters.names)).isSome = true := by
    simpa [List.find?_isSome] using h
  obtain ⟨name, hname⟩ := Option.isSome_iff_exists.1 hsome
  have hunknown := List.find?_some hname
  rw [decide_eq_true_eq] at hunknown
  refine ⟨name, List.mem_of_find?_eq_some hname, hunknown, ?_, ?_⟩
  · intro n hn hunknown
    exact Assignment.le_of_find?_names hname hn (decide_eq_true hunknown)
  · rw [assign, hname]

/-- An assignment with an unknown name reports the least one and leaves the model as it was. Every
other assignment gives each parameter it names the value for it, or the least value that parameters
may have if that is greater or there is no number to compare, and leaves all else as it was. -/
theorem overwrite_all_or_nothing (hm : m.kernel.IsRecorded) (values : Assignment) :
    (∀ name, name ∈ m.parameters.names ↔ m.HasParameter name) ∧
    ((∃ name ∈ values.names, ¬ m.HasParameter name) →
      ∃ name ∈ values.names, ¬ m.HasParameter name ∧
        (∀ n ∈ values.names, ¬ m.HasParameter n → name ≤ n) ∧
        m.assign values = .error (.fit (.unknownParameter name)) ∧
        (overwrite values).run.run m = (.error (.fit (.unknownParameter name)), m)) ∧
    ((∀ name ∈ values.names, m.HasParameter name) →
      ∃ m', m.assign values = .ok m' ∧ (overwrite values).run.run m = (.ok (), m') ∧
        (∀ name v, values.get? name = some v →
          ∃ w, m'.parameters.get? name = some w ∧ IsFloored v w) ∧
        (∀ name, name ∉ values.names → m'.parameters.get? name = m.parameters.get? name) ∧
        m'.inputs = m.inputs ∧ m'.targets = m.targets ∧
        m'.kernel.toTree = m.kernel.toTree ∧ m'.kernel.IsRecorded) := by
  refine ⟨fun _ ↦ (hasParameter_iff hm).symm, ?_⟩
  simp only [hasParameter_iff hm]
  refine ⟨fun hunknown ↦ ?_, fun hknown ↦ ?_⟩
  · obtain ⟨name, hname, hnot, hleast, hassign⟩ := exists_assign_eq_unknownParameter hunknown
    refine ⟨name, hname, hnot, hleast, hassign, ?_⟩
    rw [run_overwrite, hassign]
  · have hassign := assign_eq_ok_iff.2 ⟨hknown, rfl⟩
    refine ⟨_, hassign, ?_, ?_, ?_, rfl, rfl, ?_, ?_⟩
    · rw [run_overwrite, hassign]
    · intro name v hv
      have hname : name ∈ m.parameters.names :=
        hknown name (Assignment.isSome_get?_iff.1 (Option.isSome_iff_exists.2 ⟨v, hv⟩))
      obtain ⟨old, hold⟩ := Option.isSome_iff_exists.1 (Assignment.isSome_get?_iff.2 hname)
      refine ⟨floored v, ?_, isFloored_floored v⟩
      rw [get?_parameters_changed, hold, hv]
      rfl
    · intro name hname
      have hnone : values.get? name = none := by
        rwa [← Option.not_isSome_iff_eq_none, Assignment.isSome_get?_iff]
      rw [get?_parameters_changed, hnone]
      cases m.parameters.get? name <;> rfl
    · exact Kernel.toTree_mapParametersBelow _ _ _
    · exact hm.mapParametersBelow _ _

def smoothTrend : GaussianProcess :=
  ⟨[0.0, 1.0], [0.0, 1.0], .node .sum [.leaf (.standard .rbf), .leaf (.standard .linear)], 1.0⟩

theorem overwrite_all_or_nothing_smoothTrend :
    smoothTrend.kernel.IsRecorded ∧
      (overwrite (.ofList [("kernel/periodic/period", 1.0)])).run.run smoothTrend =
        (.error (.fit (.unknownParameter "kernel/periodic/period")), smoothTrend) ∧
      ∃ m', (overwrite (.ofList [("kernel/0/rbf/lengthscales", 2.5), (noisePath, -3.0)])).run.run
          smoothTrend = (.ok (), m') ∧
        m'.parameters.get? "kernel/0/rbf/lengthscales" = some 2.5 ∧
        m'.parameters.get? noisePath = some leastParameter ∧
        m'.parameters.get? "kernel/1/linear/variance" =
          smoothTrend.parameters.get? "kernel/1/linear/variance" := by
  have hrecorded : smoothTrend.kernel.IsRecorded := by
    intro f hf
    have hf : f = .standard .rbf ∨ f = .standard .linear := by
      simpa [smoothTrend, OpTree.labels] using hf
    rcases hf with rfl | rfl <;> rfl
  refine ⟨hrecorded, ?_, ?_⟩
  · obtain ⟨hnames, hunknown, -⟩ :=
      overwrite_all_or_nothing hrecorded (.ofList [("kernel/periodic/period", 1.0)])
    have hperiod : ¬ smoothTrend.HasParameter "kernel/periodic/period" := by
      rw [← hnames]
      decide
    obtain ⟨name, hname, -, -, -, hrun⟩ := hunknown ⟨_, List.mem_singleton_self _, hperiod⟩
    rw [List.mem_singleton.1 hname] at hrun
    exact hrun
  · obtain ⟨hnames, -, hknown⟩ := overwrite_all_or_nothing hrecorded
      (.ofList [("kernel/0/rbf/lengthscales", 2.5), (noisePath, -3.0)])
    simp only [← hnames] at hknown
    obtain ⟨m', -, hrun, hassigned, hkept, -⟩ := hknown (by decide)
    obtain ⟨scale, hscale, hscaleFloored⟩ := hassigned "kernel/0/rbf/lengthscales" 2.5 rfl
    obtain ⟨noise, hnoise, hnoiseFloored⟩ := hassigned noisePath (-3.0) rfl
    refine ⟨m', hrun, ?_, ?_, hkept "kernel/1/linear/variance" (by decide)⟩
    · rcases hscaleFloored.eq_or_eq with rfl | rfl
      · exact hscale
      · exact absurd (hscaleFloored.le rfl) (by decide +kernel)
    · rcases hnoiseFloored.eq_or_eq with rfl | rfl
      · exact absurd hnoiseFloored.least_le (by decide +kernel)
      · exact hnoise

end CovarianceSearch.GaussianProcess
