import MotionPie.Base.Scanf

/-!
# Numbers of 64 bits as texts

`strtoll` reads as many digits as there are and stops at the ends of its range; `%lld` and `%llx`
write a number. What they write is read again, where it is in range.
-/

namespace MotionPie.Base

/-- The value of a digit or a letter. -/
def digitOf (b : UInt8) : Option ℕ :=
  if 48 ≤ b.toNat ∧ b.toNat ≤ 57 then some (b.toNat - 48)
  else if 97 ≤ b.toNat ∧ b.toNat ≤ 122 then some (b.toNat - 87)
  else if 65 ≤ b.toNat ∧ b.toNat ≤ 90 then some (b.toNat - 55)
  else none

/-- `LLONG_MAX`. -/
def llongMax : ℤ := 0x7fffffffffffffff

/-- `LLONG_MIN`. -/
def llongMin : ℤ := -0x8000000000000000

/-- `0x` before a number in base sixteen is passed over. -/
def dropRadix (radix : ℕ) : Bytes → Bytes
  | 48 :: b :: s => if radix = 16 ∧ (b = 120 ∨ b = 88) then s else 48 :: b :: s
  | s => s

/-- The digits at the front of a text, and their value. -/
def readDigits (radix : ℕ) (n : ℕ) : Bytes → ℕ
  | [] => n
  | b :: s =>
    match digitOf b with
    | some d => if d < radix then readDigits radix (radix * n + d) s else n
    | none => n

/-- `strtoll(s, NULL, radix)`. -/
def strtoll (radix : ℕ) (s : Bytes) : ℤ :=
  let signed := takeSign (s.dropWhile isSpace)
  let n : ℤ := readDigits radix 0 (dropRadix radix signed.2)
  max llongMin (min llongMax (if signed.1 then -n else n))

/-- The digits of a number in base sixteen, `%llx`. -/
def showHex (n : ℕ) : Bytes := (Nat.toDigits 16 n).map fun c ↦ c.toNat.toUInt8

/-- The bit pattern of a number, `(unsigned long long) n`. -/
def toUnsigned64 (n : ℤ) : ℕ := (n % 0x10000000000000000).toNat

/-! ### Numerals -/

variable {radix : ℕ} {s t : Bytes} {b : UInt8}

/-- All bytes are digits in the base. -/
def InRadix (radix : ℕ) (s : Bytes) : Prop := ∀ b ∈ s, ∃ d < radix, digitOf b = some d

theorem readDigits_append (hs : InRadix radix s) (n : ℕ) :
    readDigits radix n (s ++ t) = readDigits radix (readDigits radix n s) t := by
  induction s generalizing n with
  | nil => rfl
  | cons b s ih =>
    obtain ⟨⟨d, hd, hb⟩, hs⟩ := List.forall_mem_cons.mp hs
    rw [List.cons_append, readDigits, readDigits, hb]
    simp only [if_pos hd]
    exact ih hs _

/-- A digit is neither a space nor a sign. -/
theorem digitOf_ne (hb : (digitOf b).isSome) : isSpace b = false ∧ b ≠ 45 ∧ b ≠ 43 := by
  have hlow : 48 ≤ b.toNat := by
    unfold digitOf at hb
    split_ifs at hb with h1 h2 h3
    · exact h1.1
    · omega
    · omega
    · cases hb
  have hne {a : UInt8} (ha : a.toNat < 48) : b ≠ a := by
    rintro rfl
    omega
  refine ⟨?_, hne (by decide), hne (by decide)⟩
  simp only [isSpace, Bool.or_eq_false_iff, decide_eq_false_iff_not, Bool.and_eq_false_imp,
    decide_eq_true_eq, UInt8.le_iff_toNat_le]
  exact ⟨hne (by decide), fun _ h ↦ absurd (show b.toNat ≤ 13 from h) (by omega)⟩

/-- Nothing is passed over before a numeral. -/
theorem takeSign_numeral (hne : s ≠ []) (hs : InRadix radix s) :
    takeSign (s.dropWhile isSpace) = (false, s) := by
  obtain ⟨a, s, rfl⟩ := List.exists_cons_of_ne_nil hne
  obtain ⟨d, -, ha⟩ := hs a List.mem_cons_self
  obtain ⟨hspace, hminus, hplus⟩ := digitOf_ne (by rw [ha]; rfl)
  rw [List.dropWhile_cons_of_neg (by simp [hspace]), takeSign.eq_def]
  split
  · next h => exact absurd (List.head_eq_of_cons_eq h) hminus
  · next h => exact absurd (List.head_eq_of_cons_eq h) hplus
  · rfl

/-- The prefix of a number in base sixteen does not count. -/
theorem strtoll_hexPrefix (hne : s ≠ []) (hs : InRadix 16 s) (hdrop : dropRadix 16 s = s) :
    strtoll 16 (str "0x" ++ s) = strtoll 16 s := by
  rw [strtoll, strtoll, takeSign_numeral hne hs]
  dsimp only
  rw [hdrop]
  rfl

/-- The numeral of a number. -/
def numeral (radix n : ℕ) : Bytes := (Nat.toDigits radix n).map fun c ↦ c.toNat.toUInt8

/-- A numeral is read as its number. -/
theorem readDigits_numeral (h1 : 1 < radix) (h16 : radix ≤ 16) (n : ℕ) :
    InRadix radix (numeral radix n) ∧ readDigits radix 0 (numeral radix n) = n := by
  unfold numeral
  have hdigit : ∀ d < 16, digitOf (Nat.digitChar d).toNat.toUInt8 = some d := by decide
  induction n using Nat.strong_induction_on with
  | _ n ih =>
    by_cases hn : n < radix
    · have hd := hdigit n (hn.trans_le h16)
      rw [Nat.toDigits_of_lt_base hn, List.map_singleton]
      refine ⟨fun b hb ↦ ?_, ?_⟩
      · rw [List.mem_singleton.mp hb]
        exact ⟨n, hn, hd⟩
      · rw [readDigits, hd]
        simp only [if_pos hn, readDigits, Nat.mul_zero, Nat.zero_add]
    · have hle := not_lt.mp hn
      have hmod : n % radix < radix := Nat.mod_lt _ (by omega)
      have hd := hdigit (n % radix) (hmod.trans_le h16)
      obtain ⟨hnum, hval⟩ := ih (n / radix) (Nat.div_lt_self (by omega) h1)
      rw [Nat.toDigits_of_base_le h1 hle, List.map_append, List.map_singleton]
      refine ⟨fun b hb ↦ ?_, ?_⟩
      · rcases List.mem_append.mp hb with hb | hb
        · exact hnum b hb
        · rw [List.mem_singleton.mp hb]
          exact ⟨n % radix, hmod, hd⟩
      · rw [readDigits_append hnum, hval, readDigits, hd]
        simp only [if_pos hmod, readDigits]
        exact Nat.div_add_mod n radix

/-- A numeral has no prefix. -/
theorem dropRadix_numeral (h16 : radix ≤ 16) (hs : InRadix radix s) : dropRadix radix s = s := by
  unfold dropRadix
  split
  · next b s =>
    rw [if_neg]
    rintro ⟨-, hb⟩
    obtain ⟨d, hd, hval⟩ := hs b (List.mem_cons_of_mem _ List.mem_cons_self)
    have hx : digitOf b = some 33 := by rcases hb with rfl | rfl <;> rfl
    rw [hx] at hval
    cases hval
    omega
  · rfl

theorem numeral_ne_nil (radix n : ℕ) : numeral radix n ≠ [] := by
  rw [numeral, ne_eq, List.map_eq_nil_iff]
  exact Nat.toDigits_ne_nil

theorem strtoll_numeral (h1 : 1 < radix) (h16 : radix ≤ 16) (n : ℕ) :
    strtoll radix (numeral radix n) = min llongMax n := by
  obtain ⟨hnum, hval⟩ := readDigits_numeral h1 h16 n
  rw [strtoll, takeSign_numeral (numeral_ne_nil radix n) hnum]
  dsimp only
  rw [dropRadix_numeral h16 hnum, hval, if_neg Bool.false_ne_true]
  unfold llongMin llongMax
  omega

/-- A number in the range of `strtoll` is read as it is written. -/
theorem strtoll_showInt (v : ℤ) (hlow : llongMin ≤ v) (hhigh : v ≤ llongMax) :
    strtoll 10 (showInt v) = v := by
  cases v with
  | ofNat n =>
    have h := strtoll_numeral (by decide : 1 < 10) (by decide) n
    exact h.trans (Int.min_eq_right hhigh)
  | negSucc n =>
    obtain ⟨hnum, hval⟩ := readDigits_numeral (by decide : 1 < 10) (by decide) (n + 1)
    have hsign : takeSign ((showInt (.negSucc n)).dropWhile isSpace) = (true, numeral 10 (n + 1)) :=
      rfl
    rw [strtoll, hsign]
    dsimp only
    rw [dropRadix_numeral (by decide) hnum, hval, if_pos rfl]
    unfold llongMin at hlow ⊢
    unfold llongMax at hhigh ⊢
    omega

/-- So is one without a sign in base sixteen. -/
theorem strtoll_showHex (v : ℤ) (hlow : 0 ≤ v) (hhigh : v ≤ llongMax) :
    strtoll 16 (str "0x" ++ showHex (toUnsigned64 v)) = v := by
  have hbits : (toUnsigned64 v : ℤ) = v := by
    unfold toUnsigned64
    unfold llongMax at hhigh
    omega
  have hnum := (readDigits_numeral (by decide : 1 < 16) (by decide) (toUnsigned64 v)).1
  have h := strtoll_numeral (by decide : 1 < 16) (by decide) (toUnsigned64 v)
  rw [hbits, Int.min_eq_right hhigh] at h
  exact (strtoll_hexPrefix (numeral_ne_nil 16 _) hnum (dropRadix_numeral (by decide) hnum)).trans h

end MotionPie.Base
