import Mathlib.Data.List.Basic

/-!
# Runs of a labelled transition system

A system is a partial step function: the label says which party moves and how every choice
falls. A run executes a list of labels. The rules below carry an invariant from the first
state of a run to its last one, also when only the runs count whose steps meet a condition.
States and labels are arbitrary.
-/

namespace MotionPie.Base

universe u v

variable {σ : Type u} {α : Type v} {step : σ → α → Option σ}

/-- Execute labels one after the other. -/
def execute (step : σ → α → Option σ) (s : σ) (as : List α) : Option σ := as.foldlM step s

/-- Every label of the run meets the condition in the state in which it is executed. -/
def Meets (step : σ → α → Option σ) (C : σ → α → Prop) : σ → List α → Prop
  | _, [] => True
  | s, a :: as => C s a ∧ ∀ s', step s a = some s' → Meets step C s' as

/-- A decidable condition is decided along the run. -/
instance decidableMeets {C : σ → α → Prop} [∀ s a, Decidable (C s a)] :
    ∀ s as, Decidable (Meets step C s as)
  | _, [] => isTrue trivial
  | s, a :: as =>
    have : DecidablePred fun s' ↦ Meets step C s' as := fun s' ↦ decidableMeets s' as
    inferInstanceAs (Decidable (C s a ∧ ∀ s' ∈ step s a, Meets step C s' as))

/-- No label leaves the state as it is. -/
@[simp] theorem execute_nil (s : σ) : execute step s [] = some s := rfl

/-- A run starts with its first step. -/
theorem execute_cons {s s' : σ} {a : α} {as : List α} :
    execute step s (a :: as) = some s' ↔ ∃ s₁, step s a = some s₁ ∧ execute step s₁ as = some s' := by
  rw [execute, List.foldlM_cons, Option.bind_eq_bind, Option.bind_eq_some_iff]
  rfl

/-- A run in two parts. -/
theorem execute_append {s s' : σ} {as bs : List α} :
    execute step s (as ++ bs) = some s' ↔
      ∃ s₁, execute step s as = some s₁ ∧ execute step s₁ bs = some s' := by
  rw [execute, List.foldlM_append, Option.bind_eq_bind, Option.bind_eq_some_iff]
  rfl

/-- The invariant rule for runs whose steps meet a condition. -/
theorem execute_inv_of_meets (P : σ → Prop) {C : σ → α → Prop}
    (hstep : ∀ s a s', P s → C s a → step s a = some s' → P s') {s s' : σ} {as : List α}
    (hs : P s) (hmeets : Meets step C s as) (hrun : execute step s as = some s') : P s' := by
  induction as generalizing s with
  | nil =>
    obtain rfl : s = s' := by simpa using hrun
    exact hs
  | cons a as ih =>
    obtain ⟨s₁, hfirst, hrest⟩ := execute_cons.mp hrun
    exact ih (hstep s a s₁ hs hmeets.1 hfirst) (hmeets.2 s₁ hfirst) hrest

/-- The invariant rule. -/
theorem execute_inv (P : σ → Prop) (hstep : ∀ s a s', P s → step s a = some s' → P s')
    {s s' : σ} {as : List α} (hs : P s) (hrun : execute step s as = some s') : P s' := by
  have hmeets : ∀ as s, Meets step (fun _ _ ↦ True) s as := by
    intro as
    induction as with
    | nil => exact fun _ ↦ trivial
    | cons a as ih => exact fun s ↦ ⟨trivial, fun s' _ ↦ ih s'⟩
  exact execute_inv_of_meets P (fun s a s' hP _ ↦ hstep s a s' hP) hs (hmeets as s) hrun

/-- The rule for a condition that is exact: a step that meets it keeps the one property, another
step starts the other, and that one stays. -/
theorem execute_meets_or (P Q : σ → Prop) {C : σ → α → Prop}
    (hkeep : ∀ s a s', P s → C s a → step s a = some s' → P s')
    (hstart : ∀ s a s', P s → ¬ C s a → step s a = some s' → Q s')
    (hstay : ∀ s a s', Q s → step s a = some s' → Q s') {s s' : σ} {as : List α} (hs : P s)
    (hrun : execute step s as = some s') :
    (Meets step C s as ∧ P s') ∨ (¬ Meets step C s as ∧ Q s') := by
  induction as generalizing s with
  | nil =>
    obtain rfl : s = s' := by simpa using hrun
    exact .inl ⟨trivial, hs⟩
  | cons a as ih =>
    obtain ⟨s₁, hfirst, hrest⟩ := execute_cons.mp hrun
    by_cases hC : C s a
    · rcases ih (hkeep s a s₁ hs hC hfirst) hrest with ⟨hmeets, hP⟩ | ⟨hno, hQ⟩
      · refine .inl ⟨⟨hC, fun s₂ h₂ ↦ ?_⟩, hP⟩
        obtain rfl := Option.some.inj (hfirst.symm.trans h₂)
        exact hmeets
      · exact .inr ⟨fun hmeets ↦ hno (hmeets.2 s₁ hfirst), hQ⟩
    · have hQ := execute_inv Q hstay (hstart s a s₁ hs hC hfirst) hrest
      exact .inr ⟨fun hmeets ↦ hC hmeets.1, hQ⟩

/-- The condition holds at each step of a run that meets it. -/
theorem Meets.append {C : σ → α → Prop} {s s₁ : σ} {as bs : List α}
    (h : Meets step C s (as ++ bs)) (hrun : execute step s as = some s₁) :
    Meets step C s₁ bs := by
  induction as generalizing s with
  | nil =>
    obtain rfl : s = s₁ := by simpa using hrun
    exact h
  | cons a as ih =>
    obtain ⟨s₂, hfirst, hrest⟩ := execute_cons.mp hrun
    exact ih (h.2 s₂ hfirst) hrest

end MotionPie.Base
