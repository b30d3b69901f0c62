import Mathlib.Data.List.Sort

/-!
# Sorting by one order, reading by another

A list that is sorted by one order is ascending for another relation if and only if the one order
implies the other between its elements. Elements and both relations are arbitrary.
-/

namespace MotionPie.Base

universe u

variable {α : Type u} {r s : α → α → Prop} {l : List α}

/-- In a list that is sorted by `r` and ascending for `s`, elements that are in order for `r` are so
for `s`. -/
theorem rel_of_sorted [Std.Antisymm r] (hrefl : ∀ a ∈ l, s a a) (hr : l.Pairwise r)
    (hs : l.Pairwise s) {a b : α} (ha : a ∈ l) (hb : b ∈ l) (hab : r a b) : s a b := by
  induction l with
  | nil => cases ha
  | cons x l ih =>
    rw [List.forall_mem_cons] at hrefl
    rw [List.pairwise_cons] at hr hs
    rcases List.mem_cons.mp ha with hax | ha'
    · rcases List.mem_cons.mp hb with hbx | hb'
      · rw [hax, hbx]
        exact hrefl.1
      · rw [hax]
        exact hs.1 b hb'
    · rcases List.mem_cons.mp hb with hbx | hb'
      · have hba : r b a := by
          rw [hbx]
          exact hr.1 a ha'
        rw [antisymm hab hba, hbx]
        exact hrefl.1
      · exact ih hrefl.2 hr.2 hs.2 ha' hb'

/-- A sorted list is ascending for `s` if and only if `r` implies `s` between its elements. -/
theorem pairwise_insertionSort_iff [DecidableRel r] [Std.Total r] [IsTrans α r] [Std.Antisymm r]
    (hrefl : ∀ a ∈ l, s a a) :
    (l.insertionSort r).Pairwise s ↔ ∀ a ∈ l, ∀ b ∈ l, r a b → s a b := by
  have hsorted := List.pairwise_insertionSort r l
  constructor
  · intro hs a ha b hb hab
    apply rel_of_sorted _ hsorted hs _ _ hab
    · intro c hc
      exact hrefl c ((List.mem_insertionSort r).mp hc)
    · exact (List.mem_insertionSort r).mpr ha
    · exact (List.mem_insertionSort r).mpr hb
  · intro h
    apply hsorted.imp_of_mem
    intro a b ha hb hab
    exact h a ((List.mem_insertionSort r).mp ha) b ((List.mem_insertionSort r).mp hb) hab

end MotionPie.Base
