import Mathlib.Init

/-!
# Computations that change a state and may fail

A computation ensures a property from a state if it does not fail there and its result and the
state behind it have the property. The rules take a computation apart where it is put together.
States and results are arbitrary.
-/

namespace MotionPie.Base

variable {σ α β : Type} {m : StateT σ Option α} {f : α → StateT σ Option β} {s : σ}
  {Q Q' : α → σ → Prop} {R : β → σ → Prop}

/-- The computation does not fail, and its result and the state behind it have the property. -/
def Ensures (m : StateT σ Option α) (s : σ) (Q : α → σ → Prop) : Prop :=
  ∃ a s', m s = some (a, s') ∧ Q a s'

/-- A weaker property. -/
theorem Ensures.mono (h : Ensures m s Q) (hQ : ∀ a s', Q a s' → Q' a s') : Ensures m s Q' := by
  obtain ⟨a, s', hm, ha⟩ := h
  exact ⟨a, s', hm, hQ a s' ha⟩

@[simp] theorem ensures_pure {a : α} : Ensures (pure a) s Q ↔ Q a s := by
  constructor
  · rintro ⟨_, _, ⟨⟩, h⟩
    exact h
  · exact fun h ↦ ⟨a, s, rfl, h⟩

@[simp] theorem ensures_bind :
    Ensures (m >>= f) s R ↔ Ensures m s fun a s' ↦ Ensures (f a) s' R := by
  constructor
  · rintro ⟨b, s', h, hR⟩
    obtain ⟨⟨a, s₁⟩, hm, hf⟩ := Option.bind_eq_some_iff.mp h
    exact ⟨a, s₁, hm, b, s', hf, hR⟩
  · rintro ⟨a, s₁, hm, b, s', hf, hR⟩
    exact ⟨b, s', Option.bind_eq_some_iff.mpr ⟨(a, s₁), hm, hf⟩, hR⟩

@[simp] theorem ensures_map {g : α → β} :
    Ensures (g <$> m) s R ↔ Ensures m s fun a s' ↦ R (g a) s' := by
  rw [map_eq_pure_bind, ensures_bind]
  simp only [ensures_pure]

@[simp] theorem ensures_get {Q : σ → σ → Prop} : Ensures get s Q ↔ Q s s := ensures_pure

@[simp] theorem ensures_modify {g : σ → σ} {Q : PUnit → σ → Prop} :
    Ensures (modify g) s Q ↔ Q ⟨⟩ (g s) := by
  constructor
  · rintro ⟨_, _, ⟨⟩, h⟩
    exact h
  · exact fun h ↦ ⟨⟨⟩, g s, rfl, h⟩

theorem ensures_ite {p : Prop} [Decidable p] {m' : StateT σ Option α} :
    Ensures (if p then m else m') s Q ↔ (p → Ensures m s Q) ∧ (¬ p → Ensures m' s Q) := by
  by_cases hp : p <;> simp [hp]

/-- A loop over a list keeps what each turn keeps, and does for each element what its turn does, if
no turn undoes that for another. -/
theorem ensures_forM {g : α → StateT σ Option PUnit} {I : σ → Prop} {P : α → σ → Prop}
    {as : List α} (hs : I s)
    (hstep : ∀ a ∈ as, ∀ s, I s →
      Ensures (g a) s fun _ s' ↦ I s' ∧ P a s' ∧ ∀ b, P b s → P b s') :
    Ensures (forM as g) s fun _ s' ↦ I s' ∧ (∀ a ∈ as, P a s') ∧ ∀ b, P b s → P b s' := by
  induction as generalizing s with
  | nil => exact ensures_pure.mpr ⟨hs, fun _ ha ↦ absurd ha List.not_mem_nil, fun _ hb ↦ hb⟩
  | cons a as ih =>
    rw [List.forM_cons, ensures_bind]
    refine (hstep a List.mem_cons_self s hs).mono ?_
    rintro _ s₁ ⟨hs₁, ha, hkept⟩
    refine (ih hs₁ fun b hb ↦ hstep b (List.mem_cons_of_mem _ hb)).mono ?_
    rintro _ s₂ ⟨hs₂, hall, hkept'⟩
    refine ⟨hs₂, ?_, fun b hb ↦ hkept' b (hkept b hb)⟩
    exact List.forall_mem_cons.mpr ⟨hkept' a ha, hall⟩

end MotionPie.Base
