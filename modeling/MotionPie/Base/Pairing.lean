import Mathlib.Data.List.Perm.Basic

/-!
# Pairing the elements of two lists

Every element of the first list takes the first element of the second list that goes with it. When
going together means being of one class, nothing is left over exactly if the classes of the two
lists are the same ones, up to the order.
-/

namespace MotionPie.Base

section Pairing

variable {α β γ : Type*} {r : α → β → Bool} {xs : List α} {ys : List β} {f : α → γ} {g : β → γ}

/-- What is left over of both lists. -/
def pairUp (r : α → β → Bool) : List α → List β → List α × List β
  | [], ys => ([], ys)
  | x :: xs, ys =>
    if ys.any (r x) then pairUp r xs (ys.eraseP (r x))
    else (x :: (pairUp r xs ys).1, (pairUp r xs ys).2)

theorem pairUp_left_sublist (r : α → β → Bool) (xs : List α) (ys : List β) :
    (pairUp r xs ys).1.Sublist xs := by
  induction xs generalizing ys with
  | nil => exact List.Sublist.refl _
  | cons x xs ih =>
    rw [pairUp]
    split_ifs
    · exact (ih _).cons _
    · exact (ih _).cons_cons _

theorem pairUp_right_sublist (r : α → β → Bool) (xs : List α) (ys : List β) :
    (pairUp r xs ys).2.Sublist ys := by
  induction xs generalizing ys with
  | nil => exact List.Sublist.refl _
  | cons x xs ih =>
    rw [pairUp]
    split_ifs
    · exact (ih _).trans List.eraseP_sublist
    · exact ih _

/-- What is left over does not go together. -/
theorem pairUp_apart {x : α} {y : β} (hx : x ∈ (pairUp r xs ys).1)
    (hy : y ∈ (pairUp r xs ys).2) : r x y = false := by
  induction xs generalizing ys with
  | nil => cases hx
  | cons a xs ih =>
    rw [pairUp] at hx hy
    split_ifs at hx hy with ha
    · exact ih hx hy
    · rcases List.mem_cons.mp hx with rfl | hx
      · rw [List.any_eq_true, not_exists] at ha
        have hy' := (pairUp_right_sublist r xs ys).subset hy
        exact Bool.eq_false_iff.mpr fun h ↦ ha y ⟨hy', h⟩
      · exact ih hx hy

/-- Nothing is left over exactly if both lists have the same classes. -/
theorem pairUp_eq_nil_iff (h : ∀ x ∈ xs, ∀ y ∈ ys, r x y = true ↔ f x = g y) :
    pairUp r xs ys = ([], []) ↔ (xs.map f).Perm (ys.map g) := by
  induction xs generalizing ys with
  | nil =>
    rw [pairUp, List.map_nil, List.nil_perm, List.map_eq_nil_iff, Prod.mk.injEq]
    exact and_iff_right rfl
  | cons x xs ih =>
    have hx := h x List.mem_cons_self
    have hxs : ∀ a ∈ xs, ∀ y ∈ ys, r a y = true ↔ f a = g y :=
      fun a ha ↦ h a (List.mem_cons_of_mem _ ha)
    rw [pairUp, List.map_cons]
    split_ifs with hany
    · obtain ⟨y, hy, hry⟩ := List.any_eq_true.mp hany
      obtain ⟨b, l₁, l₂, -, hb, hys, herase⟩ := List.exists_of_eraseP hy hry
      have hperm : ys.Perm (b :: ys.eraseP (r x)) := by
        rw [herase, hys]
        exact List.perm_middle
      have hfb : f x = g b := (hx b (hys ▸ List.mem_append_right _ List.mem_cons_self)).mp hb
      rw [ih fun a ha y hy ↦ hxs a ha y (List.eraseP_sublist.subset hy)]
      constructor
      · intro hp
        rw [hfb]
        exact (hp.cons (g b)).trans (hperm.map g).symm
      · intro hp
        have hp' := hp.trans (hperm.map g)
        rw [List.map_cons, ← hfb] at hp'
        exact hp'.cons_inv
    · refine iff_of_false (by simp) fun hp ↦ hany ?_
      have hmem : f x ∈ ys.map g := hp.subset List.mem_cons_self
      obtain ⟨y, hy, hgy⟩ := List.mem_map.mp hmem
      exact List.any_eq_true.mpr ⟨y, hy, (hx y hy).mpr hgy.symm⟩

end Pairing

end MotionPie.Base
