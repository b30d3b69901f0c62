import Mathlib.Data.Int.Notation
import Mathlib.Data.List.Basic

/-!
# Blocks of memory

A block has a fixed number of cells, which hold whatever memory holds before they are stored to. A
store outside of the block has no result. The contents are arbitrary.
-/

namespace MotionPie.Base

universe u

variable {α : Type u}

/-- A block of `n` cells. -/
def malloc (junk : ℕ → α) (n : ℕ) : List α := (List.range n).map junk

/-- A block of `n` cells that starts like another one. -/
def realloc (junk : ℕ → α) (block : List α) (n : ℕ) : List α :=
  block.take n ++ malloc junk (n - block.length)

/-- `block[i] = a`. -/
def store (block : List α) (i : ℤ) (a : α) : Option (List α) :=
  if 0 ≤ i ∧ i < block.length then some (block.set i.toNat a) else none

/-- Consecutive stores. -/
def storeAll (block : List α) (i : ℕ) : List α → Option (List α)
  | [] => some block
  | a :: as => (store block i a).bind fun block ↦ storeAll block (i + 1) as

variable {junk : ℕ → α} {block : List α}

@[simp] theorem length_malloc (n : ℕ) : (malloc junk n).length = n := by
  simp [malloc]

@[simp] theorem length_realloc (n : ℕ) : (realloc junk block n).length = n := by
  simp [realloc]
  omega

/-- A block that grows keeps its cells. -/
theorem take_realloc {k n : ℕ} (hk : k ≤ block.length) (hn : block.length ≤ n) :
    (realloc junk block n).take k = block.take k := by
  rw [realloc, List.take_of_length_le hn, List.take_append_of_le_length hk]

/-- A store inside of the block. -/
theorem store_of_lt {i : ℕ} (hi : i < block.length) (a : α) :
    store block i a = some (block.set i a) := by
  rw [store, if_pos ⟨Int.natCast_nonneg i, Int.ofNat_lt.mpr hi⟩, Int.toNat_natCast]

/-- A store at the end of what has been stored. -/
theorem take_set_succ {i : ℕ} (hi : i < block.length) (a : α) :
    (block.set i a).take (i + 1) = block.take i ++ [a] := by
  rw [List.take_succ_eq_append_getElem (by simpa using hi), List.take_set_of_le (Nat.le_refl i),
    List.getElem_set_self]

/-- Consecutive stores for which there is room. -/
theorem storeAll_eq_some {i : ℕ} {as : List α} (h : i + as.length ≤ block.length) :
    storeAll block i as = some (block.take i ++ as ++ block.drop (i + as.length)) := by
  induction as generalizing block i with
  | nil => simp [storeAll]
  | cons a as ih =>
    rw [List.length_cons] at h
    have hi : i < block.length := by omega
    have hroom : i + 1 + as.length ≤ (block.set i a).length := by
      rw [List.length_set]
      omega
    have hdrop : (block.set i a).drop (i + 1 + as.length) =
        block.drop (i + (as.length + 1)) := by
      rw [List.drop_set_of_lt (by omega)]
      congr 1
      omega
    rw [storeAll, store_of_lt hi, Option.bind_some, ih hroom, take_set_succ hi, hdrop,
      List.length_cons, List.append_assoc, List.append_assoc, List.append_assoc]
    rfl

end MotionPie.Base
