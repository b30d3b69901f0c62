import Mathlib.Data.List.Basic

/-!
# Loops that may stop early

A loop over a list is `List.foldlM` in `Except ε`. The rules below reason about a run that
reached its end: an invariant indexed by the part already done, the run of one given
element, and two runs side by side. Elements, states and errors are arbitrary.
-/

namespace MotionPie.Base

universe u v w

/-- A loop over nested lists is the loop over all their elements. -/
theorem foldlM_flatMap {m : Type u → Type v} [Monad m] [LawfulMonad m] {α : Type w}
    {γ : Type w} {β : Type u} (f : β → γ → m β) (g : α → List γ) (as : List α) (s : β) :
    (as.flatMap g).foldlM f s = as.foldlM (fun s a ↦ (g a).foldlM f s) s := by
  induction as generalizing s with
  | nil => rfl
  | cons a as ih =>
    rw [List.flatMap_cons, List.foldlM_append, List.foldlM_cons]
    exact bind_congr fun s' ↦ ih s'

variable {ε α β : Type u} {f : β → α → Except ε β}

/-- A sequence succeeds when both parts do. -/
theorem bind_ok {γ : Type u} {x : Except ε β} {g : β → Except ε γ} {c : γ} :
    (x >>= g) = .ok c ↔ ∃ b, x = .ok b ∧ g b = .ok c := by
  cases x with
  | error e => simp [bind, Except.bind]
  | ok b => simp [bind, Except.bind]

/-- A computation that evaluates to a success has a result. -/
theorem exists_of_isOk {x : Except ε β} (h : x.isOk = true) : ∃ b, x = .ok b := by
  cases x with
  | error e => cases h
  | ok b => exact ⟨b, rfl⟩

/-- A computation that evaluates to a success that passes a test has such a result. -/
theorem exists_of_any {x : Except ε β} {p : β → Bool} (h : x.toOption.any p = true) :
    ∃ b, x = .ok b ∧ p b = true := by
  cases x with
  | error e => cases h
  | ok b => exact ⟨b, rfl, h⟩

/-- A successful run starts with a successful step. -/
theorem foldlM_cons_ok {a : α} {as : List α} {s out : β} :
    (a :: as).foldlM f s = .ok out ↔ ∃ s', f s a = .ok s' ∧ as.foldlM f s' = .ok out := by
  rw [List.foldlM_cons, bind_ok]

/-- A successful run in two parts. -/
theorem foldlM_append_ok {as bs : List α} {s out : β} :
    (as ++ bs).foldlM f s = .ok out ↔
      ∃ s', as.foldlM f s = .ok s' ∧ bs.foldlM f s' = .ok out := by
  rw [List.foldlM_append, bind_ok]

/-- The invariant rule: what holds before the loop and is kept by each step, knowing which
elements are done, holds after it. -/
theorem foldlM_inv (P : List α → β → Prop) {as : List α} {s out : β}
    (hrun : as.foldlM f s = .ok out) (hinit : P [] s)
    (hstep : ∀ pre a post s₁ s₂, as = pre ++ a :: post → P pre s₁ → f s₁ a = .ok s₂ →
      P (pre ++ [a]) s₂) : P as out := by
  suffices h : ∀ post pre s₁, as = pre ++ post → P pre s₁ → post.foldlM f s₁ = .ok out →
      P as out from h as [] s rfl hinit hrun
  intro post
  induction post with
  | nil =>
    intro pre s₁ has hP hr
    obtain rfl : s₁ = out := by simpa [pure, Except.pure] using hr
    simpa [has] using hP
  | cons a post ih =>
    intro pre s₁ has hP hr
    obtain ⟨s₂, hf, hr'⟩ := foldlM_cons_ok.mp hr
    exact ih (pre ++ [a]) s₂ (by simp [has]) (hstep pre a post s₁ s₂ has hP hf) hr'

/-- The invariant rule for a loop whose steps all succeed: so does the loop. -/
theorem foldlM_total (P : List α → β → Prop) {as : List α} {s : β} (hinit : P [] s)
    (hstep : ∀ pre a post s₁, as = pre ++ a :: post → P pre s₁ →
      ∃ s₂, f s₁ a = .ok s₂ ∧ P (pre ++ [a]) s₂) : ∃ out, as.foldlM f s = .ok out ∧ P as out := by
  suffices h : ∀ post pre s₁, as = pre ++ post → P pre s₁ →
      ∃ out, post.foldlM f s₁ = .ok out ∧ P as out from h as [] s rfl hinit
  intro post
  induction post with
  | nil =>
    intro pre s₁ has hP
    exact ⟨s₁, rfl, by simpa [has] using hP⟩
  | cons a post ih =>
    intro pre s₁ has hP
    obtain ⟨s₂, hf, hP₂⟩ := hstep pre a post s₁ has hP
    obtain ⟨out, hrun, hout⟩ := ih (pre ++ [a]) s₂ (by simp [has]) hP₂
    exact ⟨out, foldlM_cons_ok.mpr ⟨s₂, hf, hrun⟩, hout⟩

/-- The invariant rule when the invariant does not depend on the elements done. -/
theorem foldlM_preserves (P : β → Prop) {as : List α} {s out : β}
    (hrun : as.foldlM f s = .ok out) (hinit : P s)
    (hstep : ∀ a ∈ as, ∀ s₁ s₂, P s₁ → f s₁ a = .ok s₂ → P s₂) : P out := by
  refine foldlM_inv (fun _ ↦ P) hrun hinit fun pre a post s₁ s₂ has ↦ ?_
  exact hstep a (by simp [has]) s₁ s₂

/-- A successful run has run each of its elements. -/
theorem foldlM_split {as : List α} {s out : β} (hrun : as.foldlM f s = .ok out) {a : α}
    (ha : a ∈ as) : ∃ pre post s₁ s₂, as = pre ++ a :: post ∧ pre.foldlM f s = .ok s₁ ∧
      f s₁ a = .ok s₂ ∧ post.foldlM f s₂ = .ok out := by
  obtain ⟨pre, post, rfl⟩ := List.append_of_mem ha
  obtain ⟨s₁, hpre, hrest⟩ := foldlM_append_ok.mp hrun
  obtain ⟨s₂, hf, hpost⟩ := foldlM_cons_ok.mp hrest
  exact ⟨pre, post, s₁, s₂, rfl, hpre, hf, hpost⟩

/-- The simulation rule: a second run that can follow each step of a first one, knowing how
the first began and how it ends, succeeds too. -/
theorem foldlM_sim (R : List α → β → β → Prop) {as : List α} {s s' out : β}
    (hrun : as.foldlM f s = .ok out) (hinit : R [] s s')
    (hstep : ∀ pre a post s₁ s₂ s₁', as = pre ++ a :: post → f s₁ a = .ok s₂ →
      post.foldlM f s₂ = .ok out → R pre s₁ s₁' →
      ∃ s₂', f s₁' a = .ok s₂' ∧ R (pre ++ [a]) s₂ s₂') :
    ∃ out', as.foldlM f s' = .ok out' ∧ R as out out' := by
  suffices h : ∀ post pre s₁ s₁', as = pre ++ post → R pre s₁ s₁' → post.foldlM f s₁ = .ok out →
      ∃ out', post.foldlM f s₁' = .ok out' ∧ R as out out' from h as [] s s' rfl hinit hrun
  intro post
  induction post with
  | nil =>
    intro pre s₁ s₁' has hR hr
    obtain rfl : s₁ = out := by simpa [pure, Except.pure] using hr
    exact ⟨s₁', rfl, by simpa [has] using hR⟩
  | cons a post ih =>
    intro pre s₁ s₁' has hR hr
    obtain ⟨s₂, hf, hr'⟩ := foldlM_cons_ok.mp hr
    obtain ⟨s₂', hf', hR'⟩ := hstep pre a post s₁ s₂ s₁' has hf hr' hR
    obtain ⟨out', hout, hRout⟩ := ih (pre ++ [a]) s₂ s₂' (by simp [has]) hR' hr'
    exact ⟨out', foldlM_cons_ok.mpr ⟨s₂', hf', hout⟩, hRout⟩

end MotionPie.Base
