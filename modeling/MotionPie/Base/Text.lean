import Mathlib.Data.List.DropRight

/-!
# Byte strings

Byte strings with the methods of a Python 2 `str` and of a file opened for text: `strip`,
`split`, `startswith`, `int` and `readlines`. The laws at the end say that lines that have
been stripped survive being written and read again.
-/

namespace MotionPie.Base

/-- The bytes of a string or of a file. -/
abbrev Bytes := List UInt8

instance : LawfulBEq Bytes := inferInstance

/-- A string literal. -/
def str (s : String) : Bytes := s.toList.map fun c ↦ c.toNat.toUInt8

/-- What holds of the bytes of a text is decided byte by byte. -/
instance decidableForallBytes (s : Bytes) (p : UInt8 → Prop) [DecidablePred p] :
    Decidable (∀ b ∈ s, p b) := List.decidableBAll p s

/-- What holds of a byte that may be missing is decided for that byte. -/
instance decidableForallByte (b : Option UInt8) (p : UInt8 → Prop) [DecidablePred p] :
    Decidable (∀ c ∈ b, p c) := Option.decidableForallMem b

/-- The line terminator. -/
def newline : UInt8 := 10

/-- White space in the C locale. -/
def isSpace (b : UInt8) : Bool := b = 32 || (9 ≤ b && b ≤ 13)

/-- `s.strip()`. -/
def strip (s : Bytes) : Bytes := (s.dropWhile isSpace).rdropWhile isSpace

/-- `f.readlines()`: every line keeps its terminator. -/
def readlines : Bytes → List Bytes
  | [] => []
  | b :: s =>
    if b = newline then [b] :: readlines s
    else match readlines s with
      | [] => [[b]]
      | l :: ls => (b :: l) :: ls

/-- `s.split('\n')`. -/
def splitLines : Bytes → List Bytes
  | [] => [[]]
  | b :: s =>
    if b = newline then [] :: splitLines s
    else match splitLines s with
      | [] => [[b]]
      | l :: ls => (b :: l) :: ls

/-- `s.split()`. -/
def words : Bytes → List Bytes
  | [] => []
  | b :: s =>
    if isSpace b then words s
    else match s with
      | [] => [[b]]
      | c :: _ =>
        if isSpace c then [b] :: words s
        else match words s with
          | [] => [[b]]
          | w :: ws => (b :: w) :: ws

/-- The digits of a number. -/
def parseDigits (s : Bytes) : Option Nat :=
  if !s.isEmpty && s.all fun b ↦ 48 ≤ b && b ≤ 57 then
    some (s.foldl (fun n b ↦ 10 * n + (b.toNat - 48)) 0)
  else none

/-- `int(s)`, for a string without white space. -/
def parseInt : Bytes → Option Int
  | 45 :: s => (parseDigits s).map fun n ↦ -(n : Int)
  | 43 :: s => (parseDigits s).map fun n ↦ (n : Int)
  | s => (parseDigits s).map fun n ↦ (n : Int)

/-- `s.split(d, n)`. -/
def split (d : UInt8) : Nat → Bytes → List Bytes
  | 0, s => [s]
  | n + 1, s =>
    match s.dropWhile (· ≠ d) with
    | [] => [s]
    | _ :: t => s.takeWhile (· ≠ d) :: split d n t

/-- A decimal digit. -/
def isDigit (b : UInt8) : Bool := 48 ≤ b && b ≤ 57

/-- A letter, a digit or an underscore. -/
def isWord (b : UInt8) : Bool :=
  isDigit b || b = 95 || (65 ≤ b && b ≤ 90) || (97 ≤ b && b ≤ 122)

/-- A letter, a digit, an underscore, a hyphen or a dot. -/
def isPlain (b : UInt8) : Bool := isWord b || b = 45 || b = 46

/-- `int(s)`: white space is allowed around the number and after its sign. -/
def toInt (s : Bytes) : Option Int :=
  match strip s with
  | 45 :: t => (parseDigits (t.dropWhile isSpace)).map fun n ↦ -(n : Int)
  | 43 :: t => (parseDigits (t.dropWhile isSpace)).map fun n ↦ (n : Int)
  | t => (parseDigits t).map fun n ↦ (n : Int)

/-- `str(n)`, for a number that is not negative. -/
def showNat (n : Nat) : Bytes := (Nat.toDigits 10 n).map fun c ↦ c.toNat.toUInt8

/-- `str(n)`. -/
def showInt : Int → Bytes
  | .ofNat n => showNat n
  | .negSucc n => 45 :: showNat (n + 1)

/-- The lines that a program writes, each with a terminator. -/
def unlines (ls : List Bytes) : Bytes := ls.flatMap fun l ↦ l ++ [newline]

/-! ### Laws -/

/-- A string starts with no space after `strip`. -/
theorem head?_strip {s : Bytes} : ∀ b ∈ (strip s).head?, isSpace b = false := by
  intro b hb
  obtain ⟨t, ht⟩ := List.rdropWhile_prefix isSpace (s.dropWhile isSpace)
  cases hs : strip s with
  | nil =>
    rw [hs] at hb
    cases hb
  | cons c u =>
    rw [hs] at hb
    cases hb
    have hdrop : s.dropWhile isSpace = b :: (u ++ t) := by
      rw [← ht, ← List.cons_append, ← hs]
      rfl
    have hnot := List.head_dropWhile_not isSpace (l := s) (by simp [hdrop])
    simpa [hdrop] using hnot

/-- A string ends with no space after `strip`. -/
theorem getLast?_strip {s : Bytes} : ∀ b ∈ (strip s).getLast?, isSpace b = false := by
  intro b hb
  obtain ⟨hne, rfl⟩ := List.mem_getLast?_eq_getLast hb
  have hnot := List.rdropWhile_last_not isSpace (s.dropWhile isSpace) hne
  exact Bool.eq_false_iff.mpr hnot

/-- A string starts or ends with no space after `strip`. -/
theorem strip_strip (s : Bytes) : strip (strip s) = strip s := by
  have hhead : (strip s).dropWhile isSpace = strip s := by
    cases hs : strip s with
    | nil => rfl
    | cons b u =>
      have hb : isSpace b = false := by
        apply head?_strip (s := s)
        rw [hs]
        rfl
      rw [List.dropWhile_cons_of_neg (by simp [hb])]
  rw [strip, hhead, strip, List.rdropWhile_idempotent]

/-- A terminator at the end is stripped. -/
theorem strip_append_newline (s : Bytes) : strip (s ++ [newline]) = strip s := by
  have hspace : isSpace newline = true := rfl
  unfold strip
  rw [List.dropWhile_append]
  split
  · next hnil =>
    rw [List.isEmpty_iff.mp hnil, List.dropWhile_cons_of_pos hspace]
    rfl
  · rw [List.rdropWhile_concat_pos _ _ _ hspace]

/-- `strip` adds no byte. -/
theorem mem_of_mem_strip {s : Bytes} {b : UInt8} (hb : b ∈ strip s) : b ∈ s :=
  (List.dropWhile_suffix isSpace).subset ((List.rdropWhile_prefix isSpace _).subset hb)

/-- What is dropped at the end is dropped behind a byte that stays. -/
theorem rdropWhile_append_cons {p : UInt8 → Bool} {b : UInt8} (hb : p b = false) (s t : Bytes) :
    (s ++ b :: t).rdropWhile p = s ++ b :: t.rdropWhile p := by
  induction t using List.reverseRecOn with
  | nil => rw [List.rdropWhile_concat_neg _ _ _ (by simp [hb]), List.rdropWhile_nil]
  | append_singleton t c ih =>
    rw [← List.cons_append, ← List.append_assoc]
    by_cases hc : p c
    · rw [List.rdropWhile_concat_pos _ _ _ hc, List.rdropWhile_concat_pos _ _ _ hc, ih]
    · rw [List.rdropWhile_concat_neg _ _ _ hc, List.rdropWhile_concat_neg _ _ _ hc,
        ← List.cons_append, ← List.append_assoc]

/-- A line has no terminator when it is stripped. -/
theorem newline_notMem_strip {line : Bytes}
    (h : ∃ k, newline ∉ k ∧ (line = k ∨ line = k ++ [newline])) : newline ∉ strip line := by
  obtain ⟨k, hk, rfl | rfl⟩ := h
  · exact fun hmem ↦ hk (mem_of_mem_strip hmem)
  · rw [strip_append_newline]
    exact fun hmem ↦ hk (mem_of_mem_strip hmem)

/-- A line has no terminator but its last byte. -/
theorem mem_readlines {s l : Bytes} (hl : l ∈ readlines s) :
    ∃ k, newline ∉ k ∧ (l = k ∨ l = k ++ [newline]) := by
  induction s generalizing l with
  | nil => cases hl
  | cons b s ih =>
    rw [readlines] at hl
    split at hl
    · next hb =>
      subst hb
      rcases List.mem_cons.mp hl with rfl | hl
      · exact ⟨[], List.not_mem_nil, .inr rfl⟩
      · exact ih hl
    · next hb =>
      cases hlines : readlines s with
      | nil =>
        rw [hlines] at hl
        exact ⟨[b], by simpa using Ne.symm hb, .inl (by simpa using hl)⟩
      | cons m ms =>
        rw [hlines] at hl ih
        rcases List.mem_cons.mp hl with rfl | hl
        · obtain ⟨k, hk, hm⟩ := ih List.mem_cons_self
          refine ⟨b :: k, by simpa using ⟨Ne.symm hb, hk⟩, ?_⟩
          rcases hm with rfl | rfl
          · exact .inl rfl
          · exact .inr rfl
        · exact ih (List.mem_cons_of_mem _ hl)

/-- The first line of a file that starts with a terminated line. -/
theorem readlines_append_newline {l s : Bytes} (hl : newline ∉ l) :
    readlines (l ++ newline :: s) = (l ++ [newline]) :: readlines s := by
  induction l with
  | nil => rfl
  | cons b l ih =>
    simp only [List.mem_cons, not_or] at hl
    rw [List.cons_append, readlines, if_neg (Ne.symm hl.1), ih hl.2]
    rfl

/-- The lines of a file are the file. -/
theorem flatten_readlines (s : Bytes) : (readlines s).flatten = s := by
  induction s with
  | nil => rfl
  | cons b s ih =>
    rw [readlines]
    split
    · rw [List.flatten_cons, ih, List.singleton_append]
    · cases hlines : readlines s with
      | nil =>
        rw [hlines] at ih
        rw [← ih]
        rfl
      | cons l ls =>
        rw [hlines] at ih
        rw [← ih]
        rfl

/-- The lines of a text with a terminator at its end come before those of the rest. -/
theorem readlines_append (l s : Bytes) :
    readlines (l ++ newline :: s) = readlines (l ++ [newline]) ++ readlines s := by
  induction l with
  | nil => rfl
  | cons b l ih =>
    rw [List.cons_append, List.cons_append, readlines, readlines, ih]
    split
    · rfl
    · have hne : readlines (l ++ [newline]) ≠ [] := by
        cases l with
        | nil => simp [readlines]
        | cons c l =>
          rw [List.cons_append, readlines]
          split
          · simp
          · split <;> simp
      obtain ⟨m, ms, hms⟩ := List.exists_cons_of_ne_nil hne
      rw [hms]
      rfl

/-- What was written as lines is read as lines. -/
theorem readlines_unlines {ls : List Bytes} (h : ∀ l ∈ ls, newline ∉ l) :
    readlines (unlines ls) = ls.map (· ++ [newline]) := by
  induction ls with
  | nil => rfl
  | cons l ls ih =>
    rw [List.forall_mem_cons] at h
    rw [unlines, List.flatMap_cons, List.append_assoc, List.singleton_append,
      readlines_append_newline h.1, List.map_cons]
    exact congrArg _ (ih h.2)

/-- Nothing to split. -/
theorem split_of_notMem {d : UInt8} {s : Bytes} (h : d ∉ s) (n : Nat) : split d n s = [s] := by
  cases n with
  | zero => rfl
  | succ n =>
    have hdrop : s.dropWhile (· ≠ d) = [] := by
      rw [List.dropWhile_eq_nil_iff]
      intro b hb
      simpa using fun hbd : b = d ↦ h (hbd ▸ hb)
    rw [split, hdrop]

/-- The first separator splits. -/
theorem split_append {d : UInt8} {s : Bytes} (h : d ∉ s) (n : Nat) (t : Bytes) :
    split d (n + 1) (s ++ d :: t) = s :: split d n t := by
  have hall : ∀ b ∈ s, decide (b ≠ d) = true := by
    intro b hb
    simpa using fun hbd : b = d ↦ h (hbd ▸ hb)
  have hstop : (d :: t).dropWhile (· ≠ d) = d :: t := List.dropWhile_cons_of_neg (by simp)
  have htake : (d :: t).takeWhile (· ≠ d) = [] := List.takeWhile_cons_of_neg (by simp)
  rw [split, List.dropWhile_append_of_pos hall, hstop, List.takeWhile_append_of_pos hall, htake,
    List.append_nil]

/-- The parts of a string, when more splits are allowed than it has separators. -/
theorem split_intercalate {d : UInt8} {ls : List Bytes} (hls : ls ≠ []) (h : ∀ l ∈ ls, d ∉ l)
    {n : Nat} (hn : ls.length ≤ n + 1) : split d n ([d].intercalate ls) = ls := by
  induction ls generalizing n with
  | nil => exact absurd rfl hls
  | cons l ls ih =>
    rw [List.forall_mem_cons] at h
    cases ls with
    | nil => simpa using split_of_notMem h.1 n
    | cons m ls =>
      cases n with
      | zero => simp at hn
      | succ n =>
        rw [List.intercalate_cons_cons, List.append_assoc, List.singleton_append, split_append h.1,
          ih (List.cons_ne_nil m ls) h.2 (Nat.le_of_succ_le_succ hn)]

/-- A string is not shorter than the number of its separators. -/
theorem length_le_intercalate (d : UInt8) (ls : List Bytes) :
    ls.length ≤ ([d].intercalate ls).length + 1 := by
  induction ls with
  | nil => simp
  | cons l ls ih =>
    cases ls with
    | nil => simp
    | cons m ls =>
      rw [List.intercalate_cons_cons, List.length_append, List.length_append, List.length_singleton]
      rw [List.length_cons]
      omega

/-- The two parts of a string with one separator at least. -/
theorem split_one_eq {d : UInt8} {s n v : Bytes} :
    split d 1 s = [n, v] ↔ d ∉ n ∧ s = n ++ d :: v := by
  constructor
  · intro h
    by_cases hd : d ∈ s
    · obtain ⟨a, t, rfl, ha⟩ := List.eq_append_cons_of_mem hd
      rw [split_append ha] at h
      obtain ⟨rfl, rfl⟩ : a = n ∧ t = v := by simpa [split] using h
      exact ⟨ha, rfl⟩
    · rw [split_of_notMem hd] at h
      simp at h
  · rintro ⟨hn, rfl⟩
    rw [split_append hn]
    rfl

/-- The two parts of a string with exactly one separator. -/
theorem split_two_eq {d : UInt8} {s n v : Bytes} :
    split d 2 s = [n, v] ↔ split d 1 s = [n, v] ∧ d ∉ v := by
  rw [split_one_eq]
  constructor
  · intro h
    by_cases hd : d ∈ s
    · obtain ⟨a, t, rfl, ha⟩ := List.eq_append_cons_of_mem hd
      rw [split_append ha] at h
      obtain ⟨rfl, ht⟩ : a = n ∧ split d 1 t = [v] := by simpa using h
      by_cases hdt : d ∈ t
      · obtain ⟨b, u, rfl, hb⟩ := List.eq_append_cons_of_mem hdt
        rw [split_append hb] at ht
        simp [split] at ht
      · rw [split_of_notMem hdt] at ht
        obtain rfl : t = v := by simpa using ht
        exact ⟨⟨ha, rfl⟩, hdt⟩
    · rw [split_of_notMem hd] at h
      simp at h
  · rintro ⟨⟨hn, rfl⟩, hv⟩
    rw [split_append hn, split_of_notMem hv]

/-- `strip` leaves a string alone that has no space at its ends. -/
theorem strip_eq_self {s : Bytes} (hhead : ∀ b ∈ s.head?, isSpace b = false)
    (hlast : ∀ b ∈ s.getLast?, isSpace b = false) : strip s = s := by
  have hdrop : s.dropWhile isSpace = s := by
    cases s with
    | nil => rfl
    | cons b s =>
      have hb := hhead b rfl
      exact List.dropWhile_cons_of_neg (by simp [hb])
  rw [strip, hdrop, List.rdropWhile_eq_self_iff]
  intro hne
  have hb := hlast _ (List.getLast?_eq_some_getLast hne)
  simp [hb]

/-- The digits of a number are digits. -/
theorem isDigit_of_mem_showNat {n : Nat} {b : UInt8} (hb : b ∈ showNat n) : isDigit b = true := by
  obtain ⟨c, hc, rfl⟩ := List.mem_map.mp hb
  have hdigit := Nat.isDigit_of_mem_toDigits (by decide) (by decide) hc
  simp only [Char.isDigit, Bool.and_eq_true, decide_eq_true_eq, UInt32.le_iff_toNat_le, ge_iff_le]
    at hdigit
  have hlow : 48 ≤ c.toNat := hdigit.1
  have hhigh : c.toNat ≤ 57 := hdigit.2
  simp only [isDigit, Bool.and_eq_true, decide_eq_true_eq, UInt8.le_iff_toNat_le,
    Nat.toUInt8_eq, UInt8.toNat_ofNat']
  have hmod : c.toNat % 2 ^ 8 = c.toNat := Nat.mod_eq_of_lt (by omega)
  rw [hmod]
  exact ⟨hlow, hhigh⟩

-- A digit character and its byte have the same value.
/-- A natural number has digits in it only. -/
theorem notMem_showNat {b : UInt8} (h : isDigit b = false) (n : Nat) : b ∉ showNat n := by
  intro hb
  rw [isDigit_of_mem_showNat hb] at h
  cases h

private theorem toNat_digit {n : Nat} {c : Char} (hc : c ∈ Nat.toDigits 10 n) :
    c.toNat.toUInt8.toNat = c.toNat := by
  have hdigit := Nat.isDigit_of_mem_toDigits (by decide) (by decide) hc
  simp only [Char.isDigit, Bool.and_eq_true, decide_eq_true_eq, UInt32.le_iff_toNat_le] at hdigit
  have hhigh : c.toNat ≤ 57 := hdigit.2
  rw [Nat.toUInt8_eq, UInt8.toNat_ofNat']
  exact Nat.mod_eq_of_lt (by omega)

/-- A number has a digit. -/
theorem showNat_ne_nil (n : Nat) : showNat n ≠ [] := by
  simp [showNat]

/-- The digits of a number are read back as the number. -/
theorem parseDigits_showNat (n : Nat) : parseDigits (showNat n) = some n := by
  have hall : (showNat n).all (fun b ↦ 48 ≤ b && b ≤ 57) = true :=
    List.all_eq_true.mpr fun b hb ↦ isDigit_of_mem_showNat hb
  have hempty : (showNat n).isEmpty = false := by simpa using showNat_ne_nil n
  have hvalue : ∀ l : List Char, (∀ c ∈ l, c ∈ Nat.toDigits 10 n) → ∀ m,
      (l.map fun c ↦ c.toNat.toUInt8).foldl (fun n b ↦ 10 * n + (b.toNat - 48)) m =
        Nat.ofDigitChars 10 l m := by
    intro l
    induction l with
    | nil => intro _ m; simp
    | cons c l ih =>
      intro hl m
      have hc := toNat_digit (hl c List.mem_cons_self)
      rw [List.map_cons, List.foldl_cons, hc, Nat.ofDigitChars_cons]
      exact ih (fun d hd ↦ hl d (List.mem_cons_of_mem c hd)) _
  rw [parseDigits, hall, hempty]
  simp only [Bool.not_false, Bool.true_and, if_true, showNat, hvalue _ fun _ h ↦ h,
    Nat.ofDigitChars_ten_toDigits]

/-- A byte of a number is a digit or the sign. -/
theorem mem_showInt {n : Int} {b : UInt8} (hb : b ∈ showInt n) : isDigit b = true ∨ b = 45 := by
  cases n with
  | ofNat n => exact .inl (isDigit_of_mem_showNat hb)
  | negSucc n =>
    rcases List.mem_cons.mp hb with rfl | hb
    · exact .inr rfl
    · exact .inl (isDigit_of_mem_showNat hb)

/-- A number has digits and a sign in it only. -/
theorem notMem_showInt {b : UInt8} (h : isDigit b = false ∧ b ≠ 45) (n : Int) : b ∉ showInt n := by
  intro hb
  rcases mem_showInt hb with hdigit | hminus
  · exact absurd hdigit (Bool.eq_false_iff.mp h.1)
  · exact h.2 hminus

/-- A number has a byte. -/
theorem showInt_ne_nil (n : Int) : showInt n ≠ [] := by
  cases n with
  | ofNat n => exact showNat_ne_nil n
  | negSucc n => simp [showInt]

/-- A digit is no space. -/
theorem isSpace_of_isDigit {b : UInt8} (hb : isDigit b = true) : isSpace b = false := by
  simp only [isDigit, isSpace, Bool.and_eq_true, decide_eq_true_eq, Bool.or_eq_false_iff,
    decide_eq_false_iff_not, Bool.and_eq_false_imp, UInt8.le_iff_toNat_le, ← UInt8.toNat_inj] at *
  have hlow : 48 ≤ b.toNat := hb.1
  exact ⟨fun h ↦ by rw [h] at hlow; exact absurd hlow (by decide),
    fun _ h ↦ absurd (show b.toNat ≤ 13 from h) (by omega)⟩

/-- A number has no space in it. -/
theorem isSpace_of_mem_showInt {n : Int} {b : UInt8} (hb : b ∈ showInt n) : isSpace b = false := by
  rcases mem_showInt hb with hb | rfl
  · exact isSpace_of_isDigit hb
  · rfl

/-- A string without a space is stripped already. -/
theorem strip_of_solid {s : Bytes} (h : ∀ b ∈ s, isSpace b = false) : strip s = s :=
  strip_eq_self (fun b hb ↦ h b (List.mem_of_mem_head? hb))
    fun b hb ↦ h b (List.mem_of_mem_getLast? hb)

/-- A plain byte is no space. -/
theorem isSpace_of_isPlain {b : UInt8} (hb : isPlain b = true) : isSpace b = false := by
  have hdigit : (48 : UInt8).toNat = 48 := rfl
  have hunderscore : (95 : UInt8).toNat = 95 := rfl
  have hupper : (65 : UInt8).toNat = 65 := rfl
  have hlower : (97 : UInt8).toNat = 97 := rfl
  have hhyphen : (45 : UInt8).toNat = 45 := rfl
  have hdot : (46 : UInt8).toNat = 46 := rfl
  have hblank : (32 : UInt8).toNat = 32 := rfl
  have hreturn : (13 : UInt8).toNat = 13 := rfl
  by_contra hspace
  simp only [isPlain, isWord, isDigit, isSpace, Bool.not_eq_false, Bool.or_eq_true,
    Bool.and_eq_true, decide_eq_true_eq, UInt8.le_iff_toNat_le, ← UInt8.toNat_inj] at hb hspace
  omega

/-- A byte that is not plain is in no plain word. -/
theorem notMem_of_isPlain {s : Bytes} (hs : ∀ b ∈ s, isPlain b = true) {b : UInt8}
    (hb : isPlain b = false) : b ∉ s := by
  intro hmem
  rw [hs b hmem] at hb
  cases hb

/-- A number is a plain word. -/
theorem isPlain_of_mem_showInt {n : Int} {b : UInt8} (hb : b ∈ showInt n) : isPlain b = true := by
  rcases mem_showInt hb with hdigit | rfl
  · simp [isPlain, isWord, hdigit]
  · rfl

/-- What was written as a number is read as the number. -/
theorem toInt_showInt (n : Int) : toInt (showInt n) = some n := by
  rw [toInt, strip_of_solid fun b hb ↦ isSpace_of_mem_showInt hb]
  cases n with
  | ofNat n =>
    obtain ⟨b, s, hs⟩ := List.exists_cons_of_ne_nil (showNat_ne_nil n)
    have hb : isDigit b = true := isDigit_of_mem_showNat (n := n) (by simp [hs])
    have hminus : b ≠ 45 := fun h ↦ by simp [h, isDigit] at hb
    have hplus : b ≠ 43 := fun h ↦ by simp [h, isDigit] at hb
    have hparse := parseDigits_showNat n
    rw [showInt, hs]
    split
    · next h => exact absurd (List.cons.inj h).1 hminus
    · next h => exact absurd (List.cons.inj h).1 hplus
    · rw [← hs, hparse]
      rfl
  | negSucc n =>
    have hdrop : (showNat (n + 1)).dropWhile isSpace = showNat (n + 1) := by
      obtain ⟨b, s, hs⟩ := List.exists_cons_of_ne_nil (showNat_ne_nil (n + 1))
      have hb : isDigit b = true := isDigit_of_mem_showNat (n := n + 1) (by simp [hs])
      rw [hs, List.dropWhile_cons_of_neg (by simp [isSpace_of_isDigit hb])]
    have hparse := parseDigits_showNat (n + 1)
    simp only [showInt, hdrop, hparse]
    rfl

end MotionPie.Base
