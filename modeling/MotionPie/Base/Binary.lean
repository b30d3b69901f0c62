import Mathlib.Data.Nat.Bits
import Mathlib.Tactic.Ring
import MotionPie.Base.Text

/-!
# Numerals in base two

Texts of the digits zero and one. A power of two divides a number when its numeral ends with that
many zeros, so what is left of a numeral without its zeros at the end has a length that tells the
power. Numerals may have zeros in front.
-/

namespace MotionPie.Base

/-- The digits of `bin(n)`, for a number that is not negative. -/
def binDigits (n : Nat) : Bytes := (Nat.toDigits 2 n).map fun c ↦ c.toNat.toUInt8

/-- The value of a numeral. -/
def binValue (s : Bytes) : Nat := s.foldl (fun n b ↦ 2 * n + (b.toNat - 48)) 0

/-- A text of zeros and ones. -/
def IsNumeral (s : Bytes) : Prop := ∀ b ∈ s, b = 48 ∨ b = 49

variable {s t : Bytes} {n k : Nat}

/-! ### Values -/

/-- A digit behind a numeral. -/
theorem binValue_concat (s : Bytes) (b : UInt8) :
    binValue (s ++ [b]) = 2 * binValue s + (b.toNat - 48) := by
  rw [binValue, List.foldl_concat]
  rfl

/-- Numerals side by side. -/
theorem binValue_append (s t : Bytes) :
    binValue (s ++ t) = 2 ^ t.length * binValue s + binValue t := by
  induction t using List.reverseRecOn with
  | nil => simp [binValue]
  | append_singleton t b ih =>
    rw [← List.append_assoc, binValue_concat, binValue_concat, ih, List.length_append,
      List.length_singleton, pow_succ]
    ring

/-- Zeros in front do not count. -/
theorem binValue_replicate (k : Nat) (t : Bytes) :
    binValue (List.replicate k 48 ++ t) = binValue t := by
  have hzero : binValue (List.replicate k 48) = 0 := by
    induction k with
    | zero => rfl
    | succ k ih => rw [List.replicate_succ', binValue_concat, ih]; rfl
  rw [binValue_append, hzero, Nat.mul_zero, Nat.zero_add]

/-! ### Digits of a number -/

-- The digits as characters.
private theorem mem_toDigits_two {c : Char} (hc : c ∈ Nat.toDigits 2 n) : c = '0' ∨ c = '1' := by
  induction n using Nat.strongRecOn with
  | ind n ih =>
    rw [Nat.toDigits_eq_if (by decide)] at hc
    have hdigit : ∀ m < 2, Nat.digitChar m = '0' ∨ Nat.digitChar m = '1' := by decide
    split at hc
    · next hn =>
      rw [List.mem_singleton.mp hc]
      exact hdigit n hn
    · next hn =>
      rcases List.mem_append.mp hc with hc | hc
      · exact ih (n / 2) (by omega) hc
      · rw [List.mem_singleton.mp hc]
        exact hdigit _ (Nat.mod_lt n (by decide))

/-- The digits of a number are a numeral. -/
theorem isNumeral_binDigits (n : Nat) : IsNumeral (binDigits n) := by
  intro b hb
  obtain ⟨c, hc, rfl⟩ := List.mem_map.mp hb
  rcases mem_toDigits_two hc with rfl | rfl
  · exact .inl rfl
  · exact .inr rfl

/-- The digits of a number have its value. -/
theorem binValue_binDigits (n : Nat) : binValue (binDigits n) = n := by
  have hvalue : ∀ l : List Char, (∀ c ∈ l, c = '0' ∨ c = '1') → ∀ m,
      (l.map fun c ↦ c.toNat.toUInt8).foldl (fun n b ↦ 2 * n + (b.toNat - 48)) m =
        Nat.ofDigitChars 2 l m := by
    intro l
    induction l with
    | nil => intro _ m; simp
    | cons c l ih =>
      intro hl m
      rw [List.forall_mem_cons] at hl
      rw [List.map_cons, List.foldl_cons, Nat.ofDigitChars_cons, ih hl.2]
      rcases hl.1 with rfl | rfl <;> rfl
  rw [binValue, binDigits, hvalue _ fun _ ↦ mem_toDigits_two]
  exact Nat.ofDigitChars_toDigits (by decide) (by decide)

/-- The number of digits of a number. -/
theorem length_binDigits_le_iff (hk : 0 < k) : (binDigits n).length ≤ k ↔ n < 2 ^ k := by
  rw [binDigits, List.length_map]
  exact Nat.length_toDigits_le_iff (by decide) hk

/-! ### Zeros at the end -/

/-- Two to a number of zeros divides the value of a numeral that ends with them. -/
theorem pow_dvd_binValue_iff (hs : IsNumeral s) (hk : k ≤ s.length) :
    2 ^ k ∣ binValue s ↔ (s.rdropWhile (· = 48)).length + k ≤ s.length := by
  induction s using List.reverseRecOn generalizing k with
  | nil =>
    obtain rfl : k = 0 := by simpa using hk
    simp
  | append_singleton s b ih =>
    have hinit : IsNumeral s := fun c hc ↦ hs c (List.mem_append_left _ hc)
    rw [List.length_append, List.length_singleton] at hk ⊢
    rw [binValue_concat]
    rcases hs b (by simp) with rfl | rfl
    · -- A zero: one power is taken off on both sides.
      rw [List.rdropWhile_concat_pos _ _ _ (by simp)]
      cases k with
      | zero =>
        have hle := (List.rdropWhile_prefix (fun b : UInt8 ↦ decide (b = 48)) s).length_le
        simp only [pow_zero, one_dvd, true_iff]
        omega
      | succ k =>
        have heven : 2 * binValue s + ((48 : UInt8).toNat - 48) = 2 * binValue s := rfl
        rw [heven, pow_succ', Nat.mul_dvd_mul_iff_left Nat.two_pos, ih hinit (by omega)]
        omega
    · -- A one: the value is odd.
      rw [List.rdropWhile_concat_neg _ _ _ (by simp), List.length_append, List.length_singleton]
      cases k with
      | zero => simp
      | succ k =>
        have hone : (49 : UInt8).toNat - 48 = 1 := rfl
        have hodd : ¬ 2 ^ (k + 1) ∣ 2 * binValue s + 1 := by
          intro hdvd
          have htwo : 2 ∣ 2 * binValue s + 1 := (dvd_pow_self 2 k.succ_ne_zero).trans hdvd
          omega
        rw [hone, iff_false_left hodd]
        omega

end MotionPie.Base
