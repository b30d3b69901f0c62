import Mathlib.Data.List.Zip
import MotionPie.Base.Scanf
import MotionPie.Package.Motioneye.Versions

/-!
# The order of versions

A version is a dotted list of numbers. `compare_versions` compares two of them as the lexicographic
order on the lists of their numbers does, whatever zeros the numbers start with.
-/

namespace MotionPie.Package.Motioneye

open Base

/-- A version: numbers in decimal digits, leading zeros allowed, with a dot between each and the
next. -/
structure Version where
  components : List Bytes
  components_ne_nil : components ≠ []
  isDigit_of_mem : ∀ c ∈ components, c ≠ [] ∧ ∀ b ∈ c, isDigit b = true

namespace Version

variable (u v w : Version)

/-- The text of a version. -/
def text : Bytes := [46].intercalate v.components

/-- The numbers of a version. -/
def numbers : List Int := v.components.map fun c ↦ (digitsValue 10 c : Int)

/-- Digits are read as the number that they are. -/
theorem toInt_component {c : Bytes} (hne : c ≠ []) (hc : ∀ b ∈ c, isDigit b = true) :
    toInt c = some (digitsValue 10 c : Int) := by
  have hparse : parseDigits c = some (digitsValue 10 c) := by
    have hall : c.all (fun b ↦ 48 ≤ b && b ≤ 57) = true := List.all_eq_true.mpr hc
    have hempty : c.isEmpty = false := by simpa using hne
    rw [parseDigits, hall, hempty]
    rfl
  rw [toInt, strip_of_solid fun b hb ↦ isSpace_of_isDigit (hc b hb)]
  split
  · exact absurd (hc 45 List.mem_cons_self) (by decide)
  · exact absurd (hc 43 List.mem_cons_self) (by decide)
  · rw [hparse]
    rfl

/-- The text is read as the numbers. -/
theorem numbers_text : Motioneye.numbers v.text = some v.numbers := by
  have hdot : ∀ c ∈ v.components, (46 : UInt8) ∉ c := by
    intro c hc hmem
    exact absurd ((v.isDigit_of_mem c hc).2 46 hmem) (by decide)
  have hsplit : split 46 v.text.length v.text = v.components :=
    split_intercalate v.components_ne_nil hdot (length_le_intercalate 46 v.components)
  rw [Motioneye.numbers, hsplit, numbers]
  have hdigits := v.isDigit_of_mem
  generalize v.components = cs at hdigits ⊢
  induction cs with
  | nil => rfl
  | cons c cs ih =>
    rw [List.forall_mem_cons] at hdigits
    rw [List.mapM_cons, toInt_component hdigits.1.1 hdigits.1.2, ih hdigits.2]
    rfl

/-- The result of the loop for two lists of numbers. -/
theorem compareVersions_text : compareVersions v.text w.text =
    some (compareNumbers v.numbers.length w.numbers.length (v.numbers.zip w.numbers)) := by
  rw [compareVersions, numbers_text, numbers_text]
  rfl

end Version

/-- The loop returns nothing else than these. -/
theorem compareNumbers_cases (len1 len2 : Nat) (ps : List (Int × Int)) :
    compareNumbers len1 len2 ps = -1 ∨ compareNumbers len1 len2 ps = 0 ∨
      compareNumbers len1 len2 ps = 1 := by
  induction ps with
  | nil =>
    rw [compareNumbers]
    split
    · exact .inl rfl
    · split
      · exact .inr (.inr rfl)
      · exact .inr (.inl rfl)
  | cons p ps ih =>
    rw [compareNumbers]
    split
    · exact .inl rfl
    · split
      · exact .inr (.inr rfl)
      · exact ih

/-- The other way round the loop returns the opposite. -/
theorem compareNumbers_swap (len1 len2 : Nat) (ps : List (Int × Int)) :
    compareNumbers len2 len1 (ps.map Prod.swap) = -compareNumbers len1 len2 ps := by
  induction ps with
  | nil =>
    rw [List.map_nil, compareNumbers, compareNumbers]
    rcases Nat.lt_trichotomy len1 len2 with hlt | rfl | hgt
    · rw [if_pos hlt, if_neg (Nat.lt_asymm hlt), if_pos hlt]
      rfl
    · simp
    · rw [if_pos hgt, if_neg (Nat.lt_asymm hgt), if_pos hgt]
  | cons p ps ih =>
    obtain ⟨m, n⟩ := p
    rw [List.map_cons, Prod.swap_prod_mk, compareNumbers, compareNumbers, ih]
    rcases Int.lt_trichotomy m n with hlt | heq | hgt
    · rw [if_pos hlt, if_neg (Int.lt_asymm hlt), if_pos hlt]
      rfl
    · simp [heq]
    · rw [if_pos hgt, if_neg (Int.lt_asymm hgt), if_pos hgt]

/-- The loop with the comparison of lengths decides between the three cases of the lexicographic
order. -/
theorem compareNumbers_spec (ns ms : List Int) :
    (compareNumbers ns.length ms.length (ns.zip ms) = -1 ∧ ns < ms) ∨
      (compareNumbers ns.length ms.length (ns.zip ms) = 0 ∧ ns = ms) ∨
        (compareNumbers ns.length ms.length (ns.zip ms) = 1 ∧ ms < ns) := by
  have hle := compareNumbers_le_zero_iff 0 ns ms
  have hge := compareNumbers_le_zero_iff 0 ms ns
  have hswap := compareNumbers_swap ns.length ms.length (ns.zip ms)
  rw [List.zip_swap] at hswap
  rw [Nat.zero_add, Nat.zero_add] at hle hge
  rw [hswap] at hge
  rcases compareNumbers_cases ns.length ms.length (ns.zip ms) with h | h | h
  · rw [h] at hge ⊢
    exact .inl ⟨rfl, not_not.mp (mt hge.mpr (by decide))⟩
  · rw [h] at hle hge ⊢
    refine .inr (.inl ⟨rfl, ?_⟩)
    exact le_antisymm (not_lt.mp (hle.mp (by decide))) (not_lt.mp (hge.mp (by decide)))
  · rw [h] at hle ⊢
    exact .inr (.inr ⟨rfl, not_not.mp (mt hle.mpr (by decide))⟩)

open Version

/-- `compare_versions` is a total order on versions, the lexicographic one of their numbers. -/
theorem compareVersions_lexicographic :
    (∀ v w : Version, ∃ c, compareVersions v.text w.text = some c ∧
      compareVersions w.text v.text = some (-c) ∧ (c = -1 ↔ v.numbers < w.numbers) ∧
        (c = 0 ↔ v.numbers = w.numbers) ∧ (c = 1 ↔ w.numbers < v.numbers)) ∧
      (∀ v w : Version, NotAfter v.text w.text ∨ NotAfter w.text v.text) ∧
        (∀ v w : Version, NotAfter v.text w.text → NotAfter w.text v.text →
          v.numbers = w.numbers) ∧
          ∀ u v w : Version, NotAfter u.text v.text → NotAfter v.text w.text →
            NotAfter u.text w.text := by
  have hafter : ∀ v w : Version, NotAfter v.text w.text ↔ v.numbers ≤ w.numbers := by
    intro v w
    rw [notAfter_iff (numbers_text v) (numbers_text w), not_lt]
  refine ⟨fun v w ↦ ?_, fun v w ↦ ?_, fun v w hvw hwv ↦ ?_, fun u v w huv hvw ↦ ?_⟩
  · refine ⟨_, compareVersions_text v w, ?_, ?_⟩
    · rw [compareVersions_text, ← compareNumbers_swap, List.zip_swap]
    · rcases compareNumbers_spec v.numbers w.numbers with ⟨h, hlt⟩ | ⟨h, heq⟩ | ⟨h, hgt⟩
      · rw [h]
        simp [hlt, hlt.ne, hlt.not_gt]
      · rw [h]
        simp [heq]
      · rw [h]
        simp [hgt, hgt.ne', hgt.not_gt]
  · rw [hafter, hafter]
    exact le_total _ _
  · rw [hafter] at hvw hwv
    exact le_antisymm hvw hwv
  · rw [hafter] at huv hvw ⊢
    exact le_trans huv hvw

end MotionPie.Package.Motioneye
