import Mathlib.Data.List.Basic

/-!
# Scanning for a pattern

A pattern says of a position what a match there gives and how long it is. `scan` goes from left
to right and takes the match at the first position that has one, then goes on behind it, as the
`findall` of a regular expression does.
-/

namespace MotionPie.Base

universe u v

variable {α : Type u} {β : Type v}

/-- What a match at the start of a list gives, and its length. -/
abbrev Pattern (α : Type u) (β : Type v) := List α → Option (β × Nat)

/-- `scan`, with the number of elements that the last match still covers. -/
def scanFrom (m : Pattern α β) : Nat → List α → List β
  | _, [] => []
  | k + 1, _ :: s => scanFrom m k s
  | 0, a :: s =>
    match m (a :: s) with
    | none => scanFrom m 0 s
    | some (b, n) => b :: scanFrom m (n - 1) s

/-- The matches that do not overlap, left to right. -/
def scan (m : Pattern α β) (s : List α) : List β := scanFrom m 0 s

/-- The matches at all positions. -/
def matchesAt (m : Pattern α β) (s : List α) : List β :=
  s.tails.filterMap fun t ↦ (m t).map Prod.fst

/-- No match begins inside another one. -/
def Apart (m : Pattern α β) : Prop :=
  ∀ s b n, m s = some (b, n) → ∀ i, 0 < i → i < n → m (s.drop i) = none

/-- Every element differs from one that is not in the list. -/
theorem forall_ne [DecidableEq α] {a : α} {s : List α} (h : a ∉ s) :
    ∀ b ∈ s, decide (b ≠ a) = true := by
  intro b hb
  have hne : b ≠ a := fun hba ↦ h (hba ▸ hb)
  simpa using hne

variable {m : Pattern α β}

/-- Elements that are covered are passed over. -/
theorem scanFrom_eq_drop (k : Nat) (s : List α) : scanFrom m k s = scan m (s.drop k) := by
  induction s generalizing k with
  | nil => simp [scan, scanFrom]
  | cons a s ih =>
    cases k with
    | zero => rfl
    | succ k => exact ih k

/-- No match at the start. -/
theorem scan_cons_of_none {a : α} {s : List α} (h : m (a :: s) = none) :
    scan m (a :: s) = scan m s := by
  rw [scan, scanFrom, h]
  rfl

/-- A match at the start. -/
theorem scan_cons_of_some {a : α} {s : List α} {b : β} {n : Nat} (h : m (a :: s) = some (b, n)) :
    scan m (a :: s) = b :: scan m (s.drop (n - 1)) := by
  rw [scan, scanFrom, h]
  exact congrArg (b :: ·) (scanFrom_eq_drop _ _)

/-- What is found was a match somewhere. -/
theorem of_mem_scan {P : β → Prop} (h : ∀ s b n, m s = some (b, n) → P b) {s : List α} {b : β}
    (hb : b ∈ scan m s) : P b := by
  have hfrom : ∀ k, ∀ b ∈ scanFrom m k s, P b := by
    clear hb
    intro k
    induction s generalizing k with
    | nil => simp [scanFrom]
    | cons a s ih =>
      cases k with
      | succ k => exact ih k
      | zero =>
        rw [scanFrom]
        split
        · exact ih 0
        · next c n hm => exact List.forall_mem_cons.mpr ⟨h _ c n hm, ih _⟩
  exact hfrom 0 b hb

/-- No match at the start. -/
theorem matchesAt_cons_of_none {a : α} {s : List α} (h : m (a :: s) = none) :
    matchesAt m (a :: s) = matchesAt m s := by
  simp [matchesAt, h]

/-- A match at the start. -/
theorem matchesAt_cons_of_some {a : α} {s : List α} {b : β} {n : Nat}
    (h : m (a :: s) = some (b, n)) : matchesAt m (a :: s) = b :: matchesAt m s := by
  simp [matchesAt, h]

/-- Positions without a match add nothing. -/
theorem matchesAt_drop {s : List α} {k : Nat} (h : ∀ i < k, m (s.drop i) = none) :
    matchesAt m (s.drop k) = matchesAt m s := by
  induction k generalizing s with
  | zero => rfl
  | succ k ih =>
    cases s with
    | nil => rfl
    | cons a s =>
      have hfirst : m (a :: s) = none := h 0 k.succ_pos
      have hrest : ∀ i < k, m (s.drop i) = none := fun i hi ↦ h (i + 1) (Nat.succ_lt_succ hi)
      rw [matchesAt_cons_of_none hfirst, ← ih hrest]
      rfl

/-- Matches that lie apart are all found. -/
theorem scan_eq_matchesAt (h : Apart m) (hnil : m [] = none) (s : List α) :
    scan m s = matchesAt m s := by
  induction hlen : s.length using Nat.strongRecOn generalizing s with
  | _ len ih =>
    cases s with
    | nil => simp [scan, scanFrom, matchesAt, hnil]
    | cons a s =>
      simp only [List.length_cons] at hlen
      cases hm : m (a :: s) with
      | none =>
        rw [scan_cons_of_none hm, matchesAt_cons_of_none hm]
        exact ih s.length (by omega) s rfl
      | some bn =>
        obtain ⟨b, n⟩ := bn
        have hshort : (s.drop (n - 1)).length < len := by
          rw [List.length_drop]
          omega
        have hinside : ∀ i < n - 1, m (s.drop i) = none := by
          intro i hi
          exact h _ b n hm (i + 1) i.succ_pos (by omega)
        rw [scan_cons_of_some hm, matchesAt_cons_of_some hm, ih _ hshort _ rfl,
          matchesAt_drop hinside]

/-- The first match is the one at the first position that has one. -/
theorem head?_scan (hnil : m [] = none) (s : List α) :
    (scan m s).head? = (matchesAt m s).head? := by
  induction s with
  | nil => simp [scan, scanFrom, matchesAt, hnil]
  | cons a s ih =>
    cases hm : m (a :: s) with
    | none => rw [scan_cons_of_none hm, matchesAt_cons_of_none hm, ih]
    | some bn => rw [scan_cons_of_some hm, matchesAt_cons_of_some hm, List.head?_cons,
        List.head?_cons]

/-- Elements at which no match begins. -/
theorem matchesAt_append {s t : List α} (h : ∀ i < s.length, m ((s ++ t).drop i) = none) :
    matchesAt m (s ++ t) = matchesAt m t := by
  rw [← matchesAt_drop h, List.drop_left]

/-- Matches that begin with an element which they hold nowhere else lie apart. -/
theorem apart_of_first {a : α} (hfirst : ∀ s, s.head? ≠ some a → m s = none)
    (honly : ∀ s b n, m s = some (b, n) → a ∉ (s.take n).tail) : Apart m := by
  intro s b n hm i hpos hi
  apply hfirst
  intro ha
  apply honly s b n hm
  rw [List.head?_drop] at ha
  apply List.mem_of_getElem? (i := i - 1)
  rw [List.getElem?_tail, List.getElem?_take_of_lt (by omega)]
  rwa [Nat.sub_add_cancel hpos]

end MotionPie.Base
