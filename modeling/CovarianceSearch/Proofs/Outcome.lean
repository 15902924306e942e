import Mathlib.Data.List.Forall2
import Mathlib.Data.List.Perm.Basic

namespace CovarianceSearch.Outcome

variable {ε ε' α β : Type}

theorem bind_eq_ok_iff {x : Except ε α} {f : α → Except ε β} {b : β} :
    x >>= f = .ok b ↔ ∃ a, x = .ok a ∧ f a = .ok b := by
  cases x <;> simp [bind, Except.bind]

theorem bind_ne_error {x : Except ε α} {f : α → Except ε β} {e : ε} (hx : x ≠ .error e)
    (hf : ∀ a, x = .ok a → f a ≠ .error e) : x >>= f ≠ .error e := by
  cases x with
  | error e' => simpa [bind, Except.bind] using hx
  | ok a => exact hf a rfl

instance decidableExistsOk {x : Except ε α} {p : α → Prop} [DecidablePred p] :
    Decidable (∃ a, x = .ok a ∧ p a) :=
  match x with
  | .ok a => decidable_of_iff (p a) (by simp)
  | .error _ => .isFalse (by simp)

theorem mapError_eq_ok_iff {x : Except ε α} {f : ε → ε'} {a : α} :
    x.mapError f = .ok a ↔ x = .ok a := by
  cases x <;> simp [Except.mapError]

section

variable {p : Prop} [Decidable p] {e : ε}

theorem check_eq_ok_iff :
    (if p then throw e else pure () : Except ε Unit) = .ok () ↔ ¬ p := by
  split
  · next h => simp [h, throw, throwThe, MonadExceptOf.throw]
  · next h => simp [h, pure, Except.pure]

theorem check_then_eq_ok_iff {next : Except ε α} {a : α} :
    (if p then (throw e : Except ε Unit) >>= fun _ ↦ next else next) = .ok a ↔
      ¬ p ∧ next = .ok a := by
  split
  · next h => simp [h, throw, throwThe, MonadExceptOf.throw, bind, Except.bind]
  · next h => simp [h]

end

theorem forM_id_eq_ok_iff (checks : List (Except ε Unit)) :
    checks.forM id = .ok () ↔ ∀ c ∈ checks, c = .ok () := by
  induction checks with
  | nil => simp [pure, Except.pure]
  | cons c checks ih =>
    cases c with
    | error e => simp [bind, Except.bind]
    | ok u => simpa [bind, Except.bind] using ih

theorem mapM_eq_ok_iff {f : α → Except ε β} {as : List α} {bs : List β} :
    as.mapM f = .ok bs ↔ List.Forall₂ (fun a b ↦ f a = .ok b) as bs := by
  induction as generalizing bs with
  | nil => cases bs <;> simp [pure, Except.pure]
  | cons a as ih =>
    rw [List.mapM_cons, bind_eq_ok_iff]
    constructor
    · rintro ⟨b, hb, h⟩
      obtain ⟨bs', hbs, h⟩ := bind_eq_ok_iff.1 h
      cases h
      exact .cons hb (ih.1 hbs)
    · intro h
      cases h with
      | cons hb hbs => exact ⟨_, hb, bind_eq_ok_iff.2 ⟨_, ih.2 hbs, rfl⟩⟩

/-- A pass that only looks whether it succeeds goes like one that keeps the results. -/
theorem forM_id_map {as : List (Except ε α)} {g : α → Unit} :
    (as.map (Except.map g)).forM id = (as.mapM id).map fun _ ↦ () := by
  induction as with
  | nil => rfl
  | cons a as ih =>
    cases a with
    | error e => rfl
    | ok a =>
      rw [List.map_cons, List.mapM_cons]
      change (as.map (Except.map g)).forM id = _
      rw [ih]
      cases as.mapM id <;> rfl

theorem mapM_eq_error_iff {f : α → Except ε β} {as : List α} {e : ε} :
    as.mapM f = .error e ↔
      ∃ bs a cs, as = bs ++ a :: cs ∧ f a = .error e ∧ ∀ b ∈ bs, ∃ c, f b = .ok c := by
  induction as with
  | nil => simp [pure, Except.pure]
  | cons a as ih =>
    rw [List.mapM_cons]
    constructor
    · intro h
      cases ha : f a with
      | error e' =>
        rw [ha] at h
        cases h
        exact ⟨[], a, as, rfl, ha, by simp⟩
      | ok c =>
        cases has : as.mapM f with
        | error e' =>
          rw [ha, has] at h
          cases h
          obtain ⟨bs, a', cs, rfl, ha', hbs⟩ := ih.1 has
          exact ⟨a :: bs, a', cs, rfl, ha', List.forall_mem_cons.2 ⟨⟨c, ha⟩, hbs⟩⟩
        | ok c' =>
          rw [ha, has] at h
          cases h
    · intro h
      obtain ⟨bs, a', cs, has, ha', hbs⟩ := h
      cases bs with
      | nil =>
        cases has
        rw [ha']
        rfl
      | cons b bs =>
        cases has
        obtain ⟨⟨c, hb⟩, hbs⟩ := List.forall_mem_cons.1 hbs
        rw [hb, ih.2 ⟨bs, a', cs, rfl, ha', hbs⟩]
        rfl

theorem exists_mapM_of_perm {f : α → Except ε β} {as as' : List α} (h : as.Perm as')
    {bs : List β} (hbs : as.mapM f = .ok bs) : ∃ bs', as'.mapM f = .ok bs' ∧ bs.Perm bs' := by
  obtain ⟨bs', hbs', hperm⟩ := List.perm_comp_forall₂ h.symm (mapM_eq_ok_iff.1 hbs)
  exact ⟨bs', mapM_eq_ok_iff.2 hbs', hperm.symm⟩

theorem exists_mapM_and_forall {f : α → Except ε β} {as : List α} {P : β → Prop}
    (h : ∀ a ∈ as, ∃ b, f a = .ok b ∧ P b) : ∃ bs, as.mapM f = .ok bs ∧ ∀ b ∈ bs, P b := by
  induction as with
  | nil => exact ⟨[], rfl, by simp⟩
  | cons a as ih =>
    obtain ⟨b, hb, hP⟩ := h a (by simp)
    obtain ⟨bs, hbs, hPs⟩ := ih fun c hc ↦ h c (by simp [hc])
    exact ⟨b :: bs, mapM_eq_ok_iff.2 (.cons hb (mapM_eq_ok_iff.1 hbs)), by simpa using ⟨hP, hPs⟩⟩

theorem exists_mapM_and_forall_flatten {f : α → Except ε (List β)} {as : List α} {P : β → Prop}
    (h : ∀ a ∈ as, ∃ bs, f a = .ok bs ∧ ∀ b ∈ bs, P b) :
    ∃ bss, as.mapM f = .ok bss ∧ ∀ b ∈ bss.flatten, P b := by
  obtain ⟨bss, hbss, hP⟩ := exists_mapM_and_forall h
  refine ⟨bss, hbss, fun b hb ↦ ?_⟩
  obtain ⟨bs, hbs, hb⟩ := List.mem_flatten.1 hb
  exact hP bs hbs b hb

theorem exists_mapM_eq_ok {f : α → Except ε β} {as : List α} (h : ∀ a ∈ as, ∃ b, f a = .ok b) :
    ∃ bs, as.mapM f = .ok bs := by
  have h : ∀ a ∈ as, ∃ b, f a = .ok b ∧ True := fun a ha ↦ by simpa using h a ha
  exact (exists_mapM_and_forall h).imp fun _ ↦ And.left

end CovarianceSearch.Outcome
