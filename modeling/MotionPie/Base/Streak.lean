import Mathlib.Data.Seq.Defs
import Mathlib.Algebra.Order.Ring.Int

/-!
# Counting a run of events

A machine reads a finite or infinite sequence, one element a pass, and gives an output for
each. One that counts the elements with a property, forgets the count at any other element
and gives the alarm once the count has reached a bound, gives it exactly where a long enough
run ends. Elements, states and outputs are arbitrary.
-/

namespace MotionPie.Base

open Stream'

universe u v w

variable {α : Type u} {β : Type v} {σ : Type w}

/-! ### Passes over a sequence -/

/-- The state before element `n`: none when the sequence is over before. -/
def stateBefore (pass : σ → α → σ × β) (start : σ) (s : Seq α) : ℕ → Option σ
  | 0 => some start
  | n + 1 => (stateBefore pass start s n).bind fun c ↦ (s.get? n).map fun a ↦ (pass c a).1

/-- The output for element `n`. -/
def outputAt (pass : σ → α → σ × β) (start : σ) (s : Seq α) (n : ℕ) : Option β :=
  (stateBefore pass start s n).bind fun c ↦ (s.get? n).map fun a ↦ (pass c a).2

/-! ### Runs -/

/-- The length of the run of elements with `p` that ends before element `n`. -/
def streak (p : α → Bool) (s : Seq α) : ℕ → ℕ
  | 0 => 0
  | n + 1 => if (s.get? n).any p then streak p s n + 1 else 0

/-- A run of `k` elements with `p` ends with element `n`. -/
def RunEnds (p : α → Bool) (s : Seq α) (k n : ℕ) : Prop :=
  k ≤ n + 1 ∧ ∀ i ≤ n, n < i + k → (s.get? i).any p = true

/-- A run of `k` elements ends where the current run has this length. -/
theorem runEnds_iff {p : α → Bool} {s : Seq α} {k n : ℕ} :
    RunEnds p s k n ↔ k ≤ streak p s (n + 1) := by
  induction n generalizing k with
  | zero =>
    rw [streak]
    split
    · next hp =>
      refine ⟨fun h ↦ h.1, fun hk ↦ ⟨hk, fun i hi _ ↦ ?_⟩⟩
      obtain rfl : i = 0 := by omega
      exact hp
    · next hp =>
      refine ⟨fun h ↦ ?_, fun hk ↦ ⟨by omega, fun i hi hlong ↦ by omega⟩⟩
      by_contra hk
      exact hp (h.2 0 (by omega) (by omega))
  | succ n ih =>
    rw [streak]
    split
    · next hp =>
      have hprev := @ih (k - 1)
      constructor
      · intro h
        have hbefore : RunEnds p s (k - 1) n :=
          ⟨by have := h.1; omega, fun i hi hlong ↦ h.2 i (by omega) (by omega)⟩
        have := hprev.mp hbefore
        omega
      · intro hk
        have hbefore := hprev.mpr (by omega)
        refine ⟨by have := hbefore.1; omega, fun i hi hlong ↦ ?_⟩
        rcases Nat.lt_or_ge n i with hlast | hin
        · obtain rfl : i = n + 1 := by omega
          exact hp
        · exact hbefore.2 i hin (by omega)
    · next hp =>
      refine ⟨fun h ↦ ?_, fun hk ↦ ⟨by omega, fun i hi hlong ↦ by omega⟩⟩
      by_contra hk
      exact hp (h.2 (n + 1) (by omega) (by omega))

/-! ### Counters -/

/-- A pass that counts elements with `p` in steps of `d` up to the bound `b`, and gives the
alarm at such an element exactly when the bound was reached before it. -/
structure Tallies (pass : ℤ → α → ℤ × β) (p : α → Bool) (d b : ℤ) (alarm : β → Prop) : Prop where
  reset : ∀ c a, p a = false → (pass c a).1 = 0 ∧ ¬ alarm (pass c a).2
  count : ∀ c a, p a = true → c < b → (pass c a).1 = c + d ∧ ¬ alarm (pass c a).2
  full : ∀ c a, p a = true → b ≤ c → (pass c a).1 = c ∧ alarm (pass c a).2

variable {pass : ℤ → α → ℤ × β} {p : α → Bool} {d b : ℤ} {alarm : β → Prop} {s : Seq α} {m : ℕ}

/-- The count is the length of the current run in steps, up to the first multiple of the step
that reaches the bound. -/
theorem Tallies.stateBefore_eq (h : Tallies pass p d b alarm) (hm : ∀ j : ℕ, d * j < b ↔ j < m)
    {n : ℕ} (hs : ∀ i < n, (s.get? i).isSome) :
    stateBefore pass 0 s n = some (d * (min (streak p s n) m : ℕ)) := by
  induction n with
  | zero => simp [stateBefore, streak]
  | succ n ih =>
    obtain ⟨a, ha⟩ := Option.isSome_iff_exists.mp (hs n (by omega))
    rw [stateBefore, ih fun i hi ↦ hs i (by omega), streak, ha, Option.bind_some, Option.map_some,
      Option.any_some]
    cases hp : p a with
    | false => simp [(h.reset _ a hp).1]
    | true =>
      rw [if_pos rfl]
      rcases Nat.lt_or_ge (streak p s n) m with hlow | hhigh
      · have hbelow := (hm (streak p s n)).mpr hlow
        rw [min_eq_left (by omega), min_eq_left (by omega : streak p s n + 1 ≤ m),
          (h.count _ a hp hbelow).1, Nat.cast_add_one, mul_add, mul_one]
      · have hreached : b ≤ d * (m : ℤ) := by
          by_contra hlt
          exact absurd ((hm m).mp (by omega)) (by omega)
        rw [min_eq_right hhigh, min_eq_right (by omega : m ≤ streak p s n + 1),
          (h.full _ a hp hreached).1]

/-- The alarm is given exactly where a run ends that is longer than the bound by one step. -/
theorem Tallies.alarm_iff (h : Tallies pass p d b alarm) (hm : ∀ j : ℕ, d * j < b ↔ j < m)
    {n : ℕ} : (∃ out ∈ outputAt pass 0 s n, alarm out) ↔ RunEnds p s (m + 1) n := by
  rw [runEnds_iff, streak]
  cases ha : s.get? n with
  | none => simp [outputAt, ha]
  | some a =>
    have hgoes : ∀ i < n, (s.get? i).isSome := by
      intro i hi
      obtain ⟨a', ha'⟩ := s.ge_stable (Nat.le_of_lt hi) ha
      rw [ha', Option.isSome_some]
    have hstate := h.stateBefore_eq hm hgoes
    rw [outputAt, hstate, ha, Option.bind_some, Option.map_some, Option.any_some]
    cases hp : p a with
    | false => simp [(h.reset _ a hp).2]
    | true =>
      rw [if_pos rfl]
      rcases Nat.lt_or_ge (streak p s n) m with hlow | hhigh
      · have hbelow := (hm (streak p s n)).mpr hlow
        rw [min_eq_left (by omega)]
        simp only [Option.mem_some_iff, exists_eq_left', (h.count _ a hp hbelow).2, false_iff]
        omega
      · have hreached : b ≤ d * (m : ℤ) := by
          by_contra hlt
          exact absurd ((hm m).mp (by omega)) (by omega)
        rw [min_eq_right hhigh]
        simp only [Option.mem_some_iff, exists_eq_left', (h.full _ a hp hreached).2, true_iff]
        omega

end MotionPie.Base
