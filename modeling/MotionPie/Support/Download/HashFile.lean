import MotionPie.Shell.Text
import MotionPie.Support.Download.CheckHash

/-!
# The hash file that check-hash reads

The loop of `support/download/check-hash` is `while read t h f`, over the bytes of a `.hash`
file. It ends when `read` fails, and `read` fails on a last line without a terminator although
it has set the variables. Such a line is listed in the file like any other.
-/

namespace MotionPie.Support.Download

open Base

/-- The text of a byte string, a character for each byte. -/
def text (s : Bytes) : String := String.ofList (s.map fun b ↦ Char.ofNat b.toNat)

theorem text_ne_empty {s : Bytes} : text s ≠ "" ↔ s ≠ [] := by
  rw [text, ne_eq, ← String.toList_inj, String.toList_ofList]
  simp

/-- The fields of a line. -/
def HashLine.read (l : List Shell.Taken) : HashLine where
  type := text (Shell.readThree l).1
  hash := text (Shell.readThree l).2.1
  file := text (Shell.readThree l).2.2
  hash_ne h := text_ne_empty.mpr (Shell.readThree_ne_nil (text_ne_empty.mp h))

/-- A `.hash` file that exists, the base name of a file, `BR_NO_CHECK_HASH_FOR`, and the digests
of the `*sum` tools. -/
structure HashFile where
  content : Bytes
  base : Bytes
  base_ne : base ≠ []
  noCheckHashFor : Bytes
  digest : String → Content → String

namespace HashFile

/-- The lines over which the loop goes, `support/download/check-hash:86`. -/
def linesRead (f : HashFile) : List HashLine := (Shell.fetch [] f.content).map HashLine.read

/-- The line that is left when `read` fails. -/
def lastLine (f : HashFile) : List HashLine :=
  match Shell.leftover [] f.content with
  | [] => []
  | l => [HashLine.read l]

/-- All lines of the file. -/
def allLines (f : HashFile) : List HashLine := f.linesRead ++ f.lastLine

/-- What an invocation checks against; `support/download/check-hash:102-107` for the
exemption. -/
def hashes (f : HashFile) : Hashes where
  hFile := some f.linesRead
  base := text f.base
  base_ne := text_ne_empty.mpr f.base_ne
  noCheck := Shell.contains (32 :: f.base ++ [32]) (32 :: f.noCheckHashFor ++ [32])
  digest := f.digest

/-- The line lists a hash, or none, for the file. -/
abbrev Names (f : HashFile) (l : HashLine) : Prop := f.hashes.names l = true

/-- `BR_NO_CHECK_HASH_FOR` has the base name. -/
abbrev Exempt (f : HashFile) : Prop := f.hashes.noCheck = true

/-- A file has the hash of the line, if the line gives one. -/
def Matches (f : HashFile) (file : Content) (l : HashLine) : Prop :=
  l.type = "none" ∨ l.type ∈ knownTypes ∧ f.digest l.type file = l.hash

instance (f : HashFile) (file : Content) (l : HashLine) : Decidable (f.Matches file l) :=
  inferInstanceAs (Decidable (_ ∨ _))

/-- A file that is accepted has all the hashes that are listed for it, and one is listed if one
has to be. -/
def Enforced (f : HashFile) (file : Content) : Prop :=
  checkHash f.hashes file = 0 →
    (∀ l ∈ f.allLines, f.Names l → f.Matches file l) ∧ (f.Exempt ∨ ∃ l ∈ f.allLines, f.Names l)

/-- The file has the hash of a line that is left over, or the lines before reject the file: one
gives another hash, or none is for a file that needs one. -/
def LastMet (f : HashFile) (file : Content) : Prop :=
  ∀ l ∈ f.lastLine, f.Names l → f.Matches file l ∨
    (∃ k ∈ f.linesRead, f.Names k ∧ ¬ f.Matches file k) ∨
      (¬ f.Exempt ∧ ∀ k ∈ f.linesRead, ¬ f.Names k)

instance (f : HashFile) (file : Content) : Decidable (f.LastMet file) :=
  inferInstanceAs (Decidable (∀ l ∈ f.lastLine, _))

variable {f : HashFile} {file : Content}

/-- A line that the loop goes on after. -/
theorem checkOneHash_eq_zero {l : HashLine} :
    checkOneHash f.hashes l (some file) = 0 ↔ f.Matches file l := by
  have hsum : f.hashes.sum l.type (some file) = f.digest l.type file := rfl
  rw [checkOneHash, Matches, hsum]
  by_cases hnone : l.type = "none"
  · simp [hnone]
  · by_cases hknown : l.type ∈ knownTypes
    · by_cases hdigest : f.digest l.type file = l.hash <;> simp [hnone, hknown, hdigest]
    · simp [hnone, hknown]

/-- A file is accepted when the lines that are read accept it. -/
theorem checkHash_eq_zero : checkHash f.hashes file = 0 ↔
    (∀ l ∈ f.linesRead, f.Names l → f.Matches file l) ∧
      (f.Exempt ∨ ∃ l ∈ f.linesRead, f.Names l) := by
  rw [Download.checkHash_eq_zero]
  simp only [hashes, Option.some.injEq, forall_eq']
  refine and_congr (forall₂_congr fun l _ ↦ imp_congr_right fun _ ↦ ?_) Iff.rfl
  exact checkOneHash_eq_zero

/-- Every hash of the last line has been looked at if the condition holds. -/
theorem enforced_of_lastMet (h : f.LastMet file) : f.Enforced file := by
  rw [Enforced, checkHash_eq_zero]
  rintro ⟨hmatches, hlisted⟩
  constructor
  · intro l hl hname
    rcases List.mem_append.mp hl with hl | hl
    · exact hmatches l hl hname
    · rcases h l hl hname with hl | ⟨k, hk, hkname, hno⟩ | ⟨hexempt, hnone⟩
      · exact hl
      · exact absurd (hmatches k hk hkname) hno
      · rcases hlisted with he | ⟨k, hk, hkname⟩
        · exact absurd he hexempt
        · exact absurd hkname (hnone k hk)
  · rcases hlisted with he | ⟨k, hk, hkname⟩
    · exact .inl he
    · exact .inr ⟨k, List.mem_append_left _ hk, hkname⟩

/-- A hash of the last line is enforced only if the condition holds. -/
theorem lastMet_of_enforced (h : f.Enforced file) : f.LastMet file := by
  rw [Enforced, checkHash_eq_zero] at h
  intro l hl hname
  by_contra hnot
  push Not at hnot
  obtain ⟨hno, hmatches, hlisted⟩ := hnot
  have haccepted : f.Exempt ∨ ∃ k ∈ f.linesRead, f.Names k := by
    by_cases hexempt : f.Exempt
    · exact .inl hexempt
    · exact .inr (hlisted hexempt)
  exact hno ((h ⟨hmatches, haccepted⟩).1 l (List.mem_append_right _ hl) hname)

/-- A file whose lines all have terminators has no last line that is left over. -/
theorem enforced_of_unlines {ls : List Bytes} (hls : ∀ l ∈ ls, Shell.Verbatim l)
    (hcontent : f.content = unlines ls) : f.Enforced file := by
  have hnil : Shell.Verbatim [] := fun b hb ↦ by cases hb
  have hleft := Shell.leftover_unlines hls hnil
  rw [List.append_nil, ← hcontent] at hleft
  have hlast : f.lastLine = [] := by
    rw [lastLine, hleft]
    rfl
  apply enforced_of_lastMet
  intro l hl
  rw [hlast] at hl
  cases hl

/-- All lines are enforced exactly when the file has the hash of the last line, should it be
left over, or the lines before reject the file already. -/
theorem enforced_iff : f.Enforced file ↔ f.LastMet file :=
  ⟨lastMet_of_enforced, enforced_of_lastMet⟩

end HashFile

/-- Two hashes of one file; the newline behind the second one is missing. -/
def cutShort : HashFile where
  content := str "sha1 aaaa curl.tgz\nsha256 bbbb curl.tgz"
  base := str "curl.tgz"
  base_ne := by decide
  noCheckHashFor := []
  digest type _ := if type = "sha1" then "aaaa" else "cccc"

/-- The second hash is wrong, and the file is accepted. -/
theorem cutShort_not_enforced : ¬ cutShort.Enforced [] :=
  fun h ↦ absurd (HashFile.lastMet_of_enforced h) (by decide +kernel)

end MotionPie.Support.Download
