import Mathlib.Data.List.Basic
import Mathlib.Logic.Nontrivial.Basic

/-!
# Windows of a list

The elements of a list from a position on, as many as there are. Two windows that show the same of
every list are the same window, or both are empty. Elements are arbitrary.
-/

namespace MotionPie.Base

universe u

variable {α : Type u} {a b m n : Nat}

/-- `n` elements from position `a` on, or those that there are. -/
def window (a n : Nat) (xs : List α) : List α := (xs.drop a).take n

/-- The number of elements in a window. -/
theorem length_window (a n : Nat) (xs : List α) :
    (window a n xs).length = min n (xs.length - a) := by
  rw [window, List.length_take, List.length_drop]

/-- An element of a window. -/
theorem getElem?_window (xs : List α) {i : Nat} (hi : i < n) :
    (window a n xs)[i]? = xs[a + i]? := by
  rw [window, List.getElem?_take_of_lt hi, List.getElem?_drop]

/-- Windows that show the same of every list. -/
theorem window_eq_iff [Nontrivial α] :
    (∀ xs : List α, window a m xs = window b n xs) ↔ m = n ∧ (n = 0 ∨ a = b) := by
  obtain ⟨x, y, hxy⟩ := exists_pair_ne α
  constructor
  · intro h
    have hlength := congrArg List.length (h (List.replicate (a + b + m + n) x))
    rw [length_window, length_window, List.length_replicate] at hlength
    have hmn : m = n := by omega
    refine ⟨hmn, ?_⟩
    by_cases hn : n = 0
    · exact .inl hn
    · right
      by_contra hab
      -- A list with its only `y` at the start of the one window.
      have hfirst := congrArg (fun xs ↦ xs[0]?)
        (h ((List.replicate (a + b + 1) x).set a y))
      simp only [getElem?_window _ (show 0 < m by omega), getElem?_window _ (show 0 < n by omega),
        Nat.add_zero] at hfirst
      have hbound : a < (List.replicate (a + b + 1) x).length := by
        rw [List.length_replicate]
        omega
      rw [List.getElem?_set_self hbound, List.getElem?_set_ne hab,
        List.getElem?_replicate_of_lt (by omega)] at hfirst
      exact hxy (Option.some.inj hfirst).symm
  · rintro ⟨rfl, rfl | rfl⟩ xs
    · rfl
    · rfl

end MotionPie.Base
