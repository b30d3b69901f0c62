import MotionPie.Base.Text

/-!
# Scanning fields

`sscanf` as a list of conversions, each of which reads from the front of a text and stores a
value; the first one that fails ends the scan, and the conversions behind it do nothing. The laws
say what a conversion does on a field that stands between blanks. The variables that are stored to
are arbitrary.
-/

namespace MotionPie.Base

universe u

variable {V : Type u}

/-- A conversion: what is left of the text and the variables after it. -/
abbrev Conversion (V : Type u) := Bytes → V → Option (Bytes × V)

/-- `sscanf`: the number of conversions that were made, and the variables. -/
def sscanf : List (Conversion V) → Bytes → V → ℕ × V
  | [], _, v => (0, v)
  | conv :: convs, s, v =>
    match conv s v with
    | none => (0, v)
    | some (s, v) => ((sscanf convs s v).1 + 1, (sscanf convs s v).2)

/-- `%Ns`. -/
def scanString (width : ℕ) (put : Bytes → V → V) : Conversion V := fun s v ↦
  let s := s.dropWhile isSpace
  let word := (s.take width).takeWhile fun b ↦ !isSpace b
  if word = [] then none else some (s.drop word.length, put word v)

/-- `%c` behind a blank in the format. -/
def scanChar (put : UInt8 → V → V) : Conversion V := fun s v ↦
  match s.dropWhile isSpace with
  | [] => none
  | b :: s => some (s, put b v)

/-- A digit in a base up to ten. -/
def isDigitIn (radix : ℕ) (b : UInt8) : Bool := 48 ≤ b.toNat && b.toNat < 48 + radix

/-- The value of digits. -/
def digitsValue (radix : ℕ) (s : Bytes) : ℕ := s.foldl (fun n b ↦ radix * n + (b.toNat - 48)) 0

/-- `strtoul` of a sign and digits, stored to an `unsigned int`: the value saturates at 64 bits,
is negated there, and the low 32 bits are kept. -/
def toUnsigned (minus : Bool) (n : ℕ) : UInt32 :=
  if 0x10000000000000000 ≤ n then UInt32.ofNat 0xffffffffffffffff
  else UInt32.ofNat (if minus then 0x10000000000000000 - n else n)

/-- A sign is taken off. -/
def takeSign : Bytes → Bool × Bytes
  | 45 :: s => (true, s)
  | 43 :: s => (false, s)
  | s => (false, s)

/-- `%u`, or `%o` for base eight. -/
def scanUnsigned (radix : ℕ) (put : UInt32 → V → V) : Conversion V := fun s v ↦
  let signed := takeSign (s.dropWhile isSpace)
  let digits := signed.2.takeWhile (isDigitIn radix)
  if digits = [] then none
  else some (signed.2.drop digits.length, put (toUnsigned signed.1 (digitsValue radix digits)) v)

/-! ### Conversions one after the other -/

/-- A conversion that cannot be made ends the scan. -/
theorem sscanf_none {conv : Conversion V} {convs : List (Conversion V)} {s : Bytes} {v : V}
    (h : conv s v = none) : sscanf (conv :: convs) s v = (0, v) := by
  rw [sscanf, h]

/-- A conversion that is made, and the others behind it. -/
theorem sscanf_cons {conv : Conversion V} {convs : List (Conversion V)} {s t : Bytes} {v w : V}
    (h : conv s v = some (t, w)) :
    sscanf (conv :: convs) s v = ((sscanf convs t w).1 + 1, (sscanf convs t w).2) := by
  rw [sscanf, h]

/-- What a conversion reads does not depend on the variables; it only stores there. -/
def Reads {α : Type*} (conv : Conversion V) (put : α → V → V) : Prop :=
  ∀ s, (∀ v, conv s v = none) ∨ ∃ t x, ∀ v, conv s v = some (t, put x v)

/-- Strings are read so. -/
theorem reads_scanString (width : ℕ) (put : Bytes → V → V) :
    Reads (scanString width put) put := by
  intro s
  by_cases hword : ((s.dropWhile isSpace).take width).takeWhile (fun b ↦ !isSpace b) = []
  · exact .inl fun v ↦ if_pos hword
  · exact .inr ⟨_, _, fun v ↦ if_neg hword⟩

/-- Characters are read so. -/
theorem reads_scanChar (put : UInt8 → V → V) : Reads (scanChar put) put := by
  intro s
  cases hs : s.dropWhile isSpace with
  | nil => exact .inl fun v ↦ by rw [scanChar, hs]
  | cons b t => exact .inr ⟨t, b, fun v ↦ by rw [scanChar, hs]⟩

/-- Numbers are read so. -/
theorem reads_scanUnsigned (radix : ℕ) (put : UInt32 → V → V) :
    Reads (scanUnsigned radix put) put := by
  intro s
  by_cases hdigits :
      (takeSign (s.dropWhile isSpace)).2.takeWhile (isDigitIn radix) = []
  · exact .inl fun v ↦ if_pos hdigits
  · exact .inr ⟨_, _, fun v ↦ if_neg hdigits⟩

/-! ### Fields between blanks -/

/-- What follows a field: a blank or the end. -/
def Ends (s : Bytes) : Prop := ∀ b ∈ s.head?, isSpace b = true

variable {gap s t : Bytes} {v : V}

/-- Blanks before a field are passed over. -/
theorem dropWhile_gap (hgap : ∀ b ∈ gap, isSpace b = true) (hs : ∀ b ∈ s.head?, isSpace b = false) :
    (gap ++ s).dropWhile isSpace = s := by
  rw [List.dropWhile_append_of_pos hgap]
  cases s with
  | nil => rfl
  | cons b s => rw [List.dropWhile_cons_of_neg (by simp [hs b rfl])]

/-- A word ends where it ends. -/
theorem takeWhile_word {p : UInt8 → Bool} (hs : ∀ b ∈ s, p b = true)
    (ht : ∀ b ∈ t.head?, p b = false) : (s ++ t).takeWhile p = s := by
  rw [List.takeWhile_append_of_pos hs]
  cases t with
  | nil => simp
  | cons b t => rw [List.takeWhile_cons_of_neg (by simp [ht b rfl]), List.append_nil]

/-- The first byte of a word and what follows it is that of the word. -/
theorem head?_word {p : UInt8 → Bool} (hne : s ≠ []) (hs : ∀ b ∈ s, p b = false) :
    ∀ b ∈ (s ++ t).head?, p b = false := by
  obtain ⟨a, s, rfl⟩ := List.exists_cons_of_ne_nil hne
  intro b hb
  obtain rfl : a = b := by simpa using hb
  exact hs a List.mem_cons_self

/-- A word that fits. -/
theorem scanString_word {width : ℕ} {put : Bytes → V → V} (hgap : ∀ b ∈ gap, isSpace b = true)
    (hne : s ≠ []) (hs : ∀ b ∈ s, isSpace b = false) (hwidth : s.length ≤ width) (ht : Ends t) :
    scanString width put (gap ++ (s ++ t)) v = some (t, put s v) := by
  have hcut : ∀ b ∈ (t.take (width - s.length)).head?, (!isSpace b) = false := by
    intro b hb
    cases t with
    | nil => simp at hb
    | cons c t =>
      cases hn : width - s.length with
      | zero => simp [hn] at hb
      | succ n => simpa [hn] using ht b (by simpa [hn] using hb)
  have hword : ((s ++ t).take width).takeWhile (fun b ↦ !isSpace b) = s := by
    rw [List.take_append, List.take_of_length_le hwidth]
    exact takeWhile_word (fun b hb ↦ by simp [hs b hb]) hcut
  simp only [scanString, dropWhile_gap hgap (head?_word hne hs), hword, if_neg hne]
  rw [List.drop_left]

/-- A character between blanks. -/
theorem scanChar_char {put : UInt8 → V → V} {b : UInt8} (hgap : ∀ b ∈ gap, isSpace b = true)
    (hb : isSpace b = false) : scanChar put (gap ++ b :: t) v = some (t, put b v) := by
  rw [scanChar, dropWhile_gap hgap (by simpa using hb)]

/-- A digit is no blank and no sign. -/
theorem isDigitIn_ne {radix : ℕ} {b : UInt8} (hb : isDigitIn radix b = true) (hradix : radix ≤ 10) :
    isSpace b = false ∧ b ≠ 45 ∧ b ≠ 43 := by
  simp only [isDigitIn, Bool.and_eq_true, decide_eq_true_eq] at hb
  refine ⟨?_, ?_, ?_⟩
  · simp only [isSpace, Bool.or_eq_false_iff, Bool.and_eq_false_imp, decide_eq_false_iff_not,
      decide_eq_true_eq, UInt8.le_iff_toNat_le, ← UInt8.toNat_inj]
    have hspace : (32 : UInt8).toNat = 32 := rfl
    have hlow : (9 : UInt8).toNat = 9 := rfl
    have hhigh : (13 : UInt8).toNat = 13 := rfl
    omega
  · rintro rfl
    exact absurd hb.1 (by decide)
  · rintro rfl
    exact absurd hb.1 (by decide)

/-- A number of digits. -/
theorem scanUnsigned_digits {radix : ℕ} {put : UInt32 → V → V} (hradix : radix ≤ 10)
    (hgap : ∀ b ∈ gap, isSpace b = true) (hne : s ≠ []) (hs : ∀ b ∈ s, isDigitIn radix b = true)
    (hvalue : digitsValue radix s < 0x100000000) (ht : ∀ b ∈ t.head?, isDigitIn radix b = false) :
    scanUnsigned radix put (gap ++ (s ++ t)) v =
      some (t, put (UInt32.ofNat (digitsValue radix s)) v) := by
  have hsign : takeSign (s ++ t) = (false, s ++ t) := by
    obtain ⟨a, s, rfl⟩ := List.exists_cons_of_ne_nil hne
    obtain ⟨-, hminus, hplus⟩ := isDigitIn_ne (hs a List.mem_cons_self) hradix
    rw [List.cons_append, takeSign.eq_def]
    split
    · next h => exact absurd (List.head_eq_of_cons_eq h) hminus
    · next h => exact absurd (List.head_eq_of_cons_eq h) hplus
    · rfl
  have hhead : ∀ b ∈ (s ++ t).head?, isSpace b = false :=
    head?_word hne fun b hb ↦ (isDigitIn_ne (hs b hb) hradix).1
  have hunsigned : toUnsigned false (digitsValue radix s) =
      UInt32.ofNat (digitsValue radix s) := by
    rw [toUnsigned, if_neg (by omega)]
    rfl
  simp only [scanUnsigned, dropWhile_gap hgap hhead, hsign, takeWhile_word hs ht, if_neg hne,
    hunsigned]
  rw [List.drop_left]

/-- A minus without digits is no number. -/
theorem scanUnsigned_minus {radix : ℕ} {put : UInt32 → V → V} (hgap : ∀ b ∈ gap, isSpace b = true)
    (ht : ∀ b ∈ t.head?, isDigitIn radix b = false) :
    scanUnsigned radix put (gap ++ 45 :: t) v = none := by
  have hhead : ∀ b ∈ ((45 : UInt8) :: t).head?, isSpace b = false := by
    intro b hb
    obtain rfl : (45 : UInt8) = b := by simpa using hb
    rfl
  have hnone : t.takeWhile (isDigitIn radix) = [] := takeWhile_word (s := []) (by simp) ht
  simp only [scanUnsigned, dropWhile_gap hgap hhead, takeSign, hnone, if_true]

/-- The conversion takes this field, between blanks, and stores it with `f`. -/
def Takes (conv : Conversion V) (s : Bytes) (f : V → V) : Prop :=
  ∀ gap t v, (∀ b ∈ gap, isSpace b = true) → Ends t → conv (gap ++ (s ++ t)) v = some (t, f v)

/-- A word is taken. -/
theorem takes_scanString {width : ℕ} (put : Bytes → V → V) (hne : s ≠ [])
    (hs : ∀ b ∈ s, isSpace b = false) (hwidth : s.length ≤ width) :
    Takes (scanString width put) s (put s) :=
  fun _ _ _ hgap ht ↦ scanString_word hgap hne hs hwidth ht

/-- A character is taken. -/
theorem takes_scanChar (put : UInt8 → V → V) {b : UInt8} (hb : isSpace b = false) :
    Takes (scanChar put) [b] (put b) :=
  fun _ _ _ hgap _ ↦ scanChar_char hgap hb

/-- A blank is no digit. -/
theorem not_digit_of_ends {radix : ℕ} (hradix : radix ≤ 10) (ht : Ends t) :
    ∀ b ∈ t.head?, isDigitIn radix b = false := by
  intro b hb
  by_contra hdigit
  have hspace := (isDigitIn_ne (by simpa using hdigit) hradix).1
  rw [ht b hb] at hspace
  cases hspace

/-- A number is taken. -/
theorem takes_scanUnsigned {radix : ℕ} (put : UInt32 → V → V) (hradix : radix ≤ 10) (hne : s ≠ [])
    (hs : ∀ b ∈ s, isDigitIn radix b = true) (hvalue : digitsValue radix s < 0x100000000) :
    Takes (scanUnsigned radix put) s (put (UInt32.ofNat (digitsValue radix s))) :=
  fun _ _ _ hgap ht ↦
    scanUnsigned_digits hradix hgap hne hs hvalue (not_digit_of_ends hradix ht)

end MotionPie.Base
