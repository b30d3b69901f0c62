import Mathlib.Data.List.Basic

/-!
# The check-hash helper

`support/download/check-hash` compares a file with the hashes that a `.hash` file lists for
its base name. It reads the file anew for every hash, so that the model is a machine that
checks one line at a time; `checkHash` is its exit code on a file that stays the same. The
lines are those that end in a newline, since `read` fails on a last line without one. The
hash functions are a parameter.
-/

namespace MotionPie.Support.Download

/-- The bytes of a file. -/
abbrev Content := List UInt8

/-- The three fields of a line that `read` reads. A line with a third field has a second
one. -/
structure HashLine where
  type : String
  hash : String
  file : String
  hash_ne : file ≠ "" → hash ≠ ""
  deriving DecidableEq

/-- What an invocation checks against: the lines of the `.hash` file, if there is one, the
base name, whether `BR_NO_CHECK_HASH_FOR` lists it, and the digests of the `*sum` tools. -/
structure Hashes where
  hFile : Option (List HashLine)
  base : String
  base_ne : base ≠ ""
  noCheck : Bool
  digest : String → Content → String

/-- Where the `while` loop stands, `support/download/check-hash:84-99`. -/
structure Check where
  lines : List HashLine
  nbChecks : Nat
  deriving DecidableEq

/-- A running check, or an exit code. -/
inductive Progress
  | running (c : Check)
  | exited (code : Nat)

/-- The hash types with a tool, `support/download/check-hash:60-61`. -/
def knownTypes : List String := ["md5", "sha1", "sha224", "sha256", "sha384", "sha512"]

/-- A comment or an empty line. -/
def HashLine.isComment (l : HashLine) : Bool :=
  l.type = "" || l.type.toList.head? = some '#'

/-- The line is about the file. -/
def Hashes.names (h : Hashes) (l : HashLine) : Bool := !l.isComment && l.file = h.base

/-- What the pipeline `${_h}sum "${_file}" |cut -d ' ' -f 1` prints: nothing for a file that
is missing. -/
def Hashes.sum (h : Hashes) (type : String) (file : Option Content) : String :=
  (file.map (h.digest type)).getD ""

/-- `support/download/check-hash:47-82`; 0 stands for the return. -/
def checkOneHash (h : Hashes) (l : HashLine) (file : Option Content) : Nat :=
  if l.type = "none" then 0
  else if l.type ∉ knownTypes then 4
  else if h.sum l.type file = l.hash then 0
  else 2

/-- Up to the loop, `support/download/check-hash:34-42`. -/
def startCheck (h : Hashes) : Progress :=
  match h.hFile with
  | none => .exited 0
  | some lines => .running ⟨lines, 0⟩

/-- One turn of the loop, or what comes after it, `support/download/check-hash:86-110`. -/
def stepCheck (h : Hashes) (c : Check) (file : Option Content) : Progress :=
  match c.lines with
  | [] => .exited (if c.nbChecks = 0 ∧ ¬ h.noCheck then 3 else 0)
  | l :: lines =>
    if h.names l then
      match checkOneHash h l file with
      | 0 => .running ⟨lines, c.nbChecks + 1⟩
      | code => .exited code
    else .running ⟨lines, c.nbChecks⟩

/-- The exit code from a given line on, for a file that stays the same. -/
def checkLines (h : Hashes) (file : Option Content) : List HashLine → Nat → Nat
  | [], nbChecks => if nbChecks = 0 ∧ ¬ h.noCheck then 3 else 0
  | l :: lines, nbChecks =>
    if h.names l then
      match checkOneHash h l file with
      | 0 => checkLines h file lines (nbChecks + 1)
      | code => code
    else checkLines h file lines nbChecks

/-- The exit code of check-hash on a file that stays the same. -/
def checkHash (h : Hashes) (file : Content) : Nat :=
  match h.hFile with
  | none => 0
  | some lines => checkLines h (some file) lines 0

/-! ### What a check that goes on has found -/

section Checked

variable {h : Hashes} {c c' : Check} {file : Option Content} {x y : Content}

/-- There is a hash to check against, or none is needed. -/
def Hashes.Enough (h : Hashes) (lines : List HashLine) : Prop :=
  h.noCheck = true ∨ ∃ l ∈ lines, h.names l = true

/-- The file passes the lines. -/
def Hashes.Passes (h : Hashes) (file : Option Content) (lines : List HashLine) : Prop :=
  ∀ l ∈ lines, h.names l = true → checkOneHash h l file = 0

theorem enough_iff {lines : List HashLine} :
    ¬ (lines.countP h.names = 0 ∧ ¬ h.noCheck = true) ↔ h.Enough lines := by
  rw [List.countP_eq_zero, Hashes.Enough]
  constructor
  · intro hno
    by_cases hc : h.noCheck = true
    · exact .inl hc
    · by_contra hnot
      exact hno ⟨fun l hl hn ↦ hnot (.inr ⟨l, hl, hn⟩), hc⟩
  · rintro (hc | ⟨l, hl, hn⟩) ⟨hall, hnc⟩
    · exact hnc hc
    · exact hall l hl hn

/-- The lines before those that are left have been passed and counted. -/
def Check.Passed (c : Check) (h : Hashes) (file : Option Content) : Prop :=
  ∃ before, h.hFile = some (before ++ c.lines) ∧ c.nbChecks = before.countP h.names ∧
    h.Passes file before

/-- A check starts with all lines left. -/
theorem startCheck_running (hs : startCheck h = .running c) : c.Passed h file := by
  unfold startCheck at hs
  split at hs
  · cases hs
  · next lines hl =>
    obtain rfl := Progress.running.inj hs
    exact ⟨[], hl, rfl, by simp [Hashes.Passes]⟩

/-- A check that ends before the first line had no lines. -/
theorem startCheck_exited {code : Nat} (hs : startCheck h = .exited code) :
    h.hFile = none ∧ code = 0 := by
  unfold startCheck at hs
  split at hs
  · next hnone => exact ⟨hnone, (Progress.exited.inj hs).symm⟩
  · cases hs

/-- A check that goes on has passed the line. -/
theorem Check.Passed.step (hp : c.Passed h file) (hs : stepCheck h c file = .running c') :
    c'.Passed h file := by
  obtain ⟨before, hl, hn, hb⟩ := hp
  rcases c with ⟨_ | ⟨l, lines⟩, nbChecks⟩
  · cases hs
  simp only at hl hn
  have hlines : h.hFile = some ((before ++ [l]) ++ lines) := by simp [hl]
  simp only [stepCheck] at hs
  split at hs
  · next hname =>
    split at hs
    · next hzero =>
      obtain rfl := Progress.running.inj hs
      refine ⟨before ++ [l], hlines, by simp [hname, hn], ?_⟩
      intro k hk hkn
      rcases List.mem_append.mp hk with hk | hk
      · exact hb k hk hkn
      · rw [List.mem_singleton.mp hk, hzero]
    · cases hs
  · next hname =>
    obtain rfl := Progress.running.inj hs
    refine ⟨before ++ [l], hlines, by simp [hname, hn], ?_⟩
    intro k hk hkn
    rcases List.mem_append.mp hk with hk | hk
    · exact hb k hk hkn
    · exact absurd (List.mem_singleton.mp hk ▸ hkn) hname

/-- A check that exits with 0 has passed all lines, and there were enough. -/
theorem Check.Passed.exit (hp : c.Passed h file) (hs : stepCheck h c file = .exited 0) :
    ∃ lines, h.hFile = some lines ∧ h.Passes file lines ∧ h.Enough lines := by
  obtain ⟨before, hl, hn, hb⟩ := hp
  rcases c with ⟨_ | ⟨l, lines⟩, nbChecks⟩
  · rw [List.append_nil] at hl
    simp only [stepCheck, Progress.exited.injEq] at hs
    simp only at hn
    refine ⟨before, hl, hb, enough_iff.mp fun hno ↦ ?_⟩
    rw [hn, if_pos hno] at hs
    omega
  · simp only [stepCheck] at hs
    split at hs
    · split at hs
      · cases hs
      · next hzero =>
        exact absurd (Progress.exited.inj hs) hzero
    · cases hs

private theorem checkLines_eq_zero {lines : List HashLine} {n : Nat} :
    checkLines h file lines n = 0 ↔
      h.Passes file lines ∧ ¬ (n + lines.countP h.names = 0 ∧ ¬ h.noCheck = true) := by
  induction lines generalizing n with
  | nil => simp [checkLines, Hashes.Passes]
  | cons l lines ih =>
    rw [checkLines]
    by_cases hname : h.names l = true
    · rw [if_pos hname]
      split
      · next hzero =>
        rw [ih]
        simp [Hashes.Passes, hname, hzero]
      · next hcode => exact iff_of_false hcode fun hp ↦ hcode (hp.1 l (by simp) hname)
    · rw [if_neg hname, ih]
      simp [Hashes.Passes, hname]

/-- When check-hash accepts a file that stays the same. -/
theorem checkHash_eq_zero : checkHash h x = 0 ↔
    ∀ lines, h.hFile = some lines → h.Passes (some x) lines ∧ h.Enough lines := by
  unfold checkHash
  cases hl : h.hFile with
  | none => simp
  | some lines =>
    simp only [Option.some.injEq, forall_eq']
    rw [checkLines_eq_zero, Nat.zero_add, enough_iff]

end Checked

end MotionPie.Support.Download
