import Mathlib.Data.List.Infix
import MotionPie.Base.Scan
import MotionPie.Base.Text

/-!
# Text in a shell script

The commands with which scripts take text apart: `read`, `echo`, `grep`, `cut` and command
substitution. A filter is a function from its input to its output, so a pipe is a composition.
-/

namespace MotionPie.Shell

open Base

/-! ### Filters -/

/-- A line without its terminator. -/
def chomp (line : Bytes) : Bytes :=
  if line.getLast? = some newline then line.dropLast else line

/-- The lines that a filter reads. The last one may have no terminator. -/
def lines (s : Bytes) : List Bytes := (readlines s).map chomp

/-- The first line, without its terminator. -/
def firstLine (s : Bytes) : Bytes := s.takeWhile (· ≠ newline)

/-- Whether a line has a word in it. -/
def contains (word line : Bytes) : Bool := line.tails.any fun t ↦ word.isPrefixOf t

/-- `grep`, for a pattern that lines match or do not match. -/
def grep (p : Bytes → Bool) (s : Bytes) : Bytes := unlines ((lines s).filter p)

/-- `grep -o`: each match is a line. -/
def grepOnly (m : Pattern UInt8 Bytes) (s : Bytes) : Bytes := unlines ((lines s).flatMap (scan m))

/-- `cut -d d -f n` on a line. A line without a separator is left as it is. -/
def field (d : UInt8) (n : Nat) (line : Bytes) : Bytes :=
  if d ∈ line then ((line.splitOn d)[n - 1]?).getD [] else line

/-- `cut -d d -f n-` on a line. A line without a separator is left as it is. -/
def fieldsFrom (d : UInt8) (n : Nat) (line : Bytes) : Bytes :=
  if d ∈ line then [d].intercalate ((line.splitOn d).drop (n - 1)) else line

/-- `cut`, for what it does to a line. -/
def cut (f : Bytes → Bytes) (s : Bytes) : Bytes := unlines ((lines s).map f)

/-! ### Builtins -/

/-- `echo s`. -/
def echo (s : Bytes) : Bytes := s ++ [newline]

/-- `$(...)`, for the output of the command. -/
def substitute (out : Bytes) : Bytes := (out.filter (· ≠ 0)).rdropWhile (· = newline)

/-- A byte that `read` has taken, and whether a backslash stood before it. -/
abbrev Taken := UInt8 × Bool

/-- The lines that `read` takes, the current one so far given. The rest of the input is dropped
when it has no terminator: `read` fails at the end of the file. -/
def fetch (cur : List Taken) : Bytes → List (List Taken)
  | [] => []
  | 92 :: 10 :: s => fetch cur s
  | 92 :: b :: s => fetch (cur ++ [(b, true)]) s
  | 10 :: s => cur :: fetch [] s
  | 0 :: s => fetch cur s
  | b :: s => fetch (cur ++ [(b, false)]) s

/-- A blank at the end of a line that does not belong to its text. -/
def Taken.blank (t : Taken) : Bool := !t.2 && (t.1 = 32 || t.1 = 9)

/-- The value that `read line` gives to its variable. A NUL behind a backslash ends it. -/
def readValue (l : List Taken) : Bytes :=
  (((l.takeWhile fun t ↦ t.1 ≠ 0).dropWhile Taken.blank).rdropWhile Taken.blank).map Prod.fst

/-- The values of `line` in `while read line; do ...; done`. -/
def whileRead (s : Bytes) : List Bytes := (fetch [] s).map readValue

/-- What `read` has taken when it fails at the end of the input. -/
def leftover (cur : List Taken) : Bytes → List Taken
  | [] => cur
  | [92] => cur
  | 92 :: 10 :: s => leftover cur s
  | 92 :: b :: s => leftover (cur ++ [(b, true)]) s
  | 10 :: s => leftover [] s
  | 0 :: s => leftover cur s
  | b :: s => leftover (cur ++ [(b, false)]) s

/-- The first word of a line, and the line from the next one on. -/
def cutWord (l : List Taken) : List Taken × List Taken :=
  (l.takeWhile (!·.blank), (l.dropWhile (!·.blank)).dropWhile Taken.blank)

/-- The values that `read a b c` gives to its variables. -/
def readThree (l : List Taken) : Bytes × Bytes × Bytes :=
  let a := cutWord ((l.takeWhile fun t ↦ t.1 ≠ 0).dropWhile Taken.blank)
  let b := cutWord a.2
  (a.1.map Prod.fst, b.1.map Prod.fst, (b.2.rdropWhile Taken.blank).map Prod.fst)

/-! ### Laws -/

/-- What was written as lines is read as lines. -/
theorem lines_unlines {ls : List Bytes} (h : ∀ l ∈ ls, newline ∉ l) : lines (unlines ls) = ls := by
  rw [lines, readlines_unlines h, List.map_map]
  apply List.map_id''
  intro l
  simp [chomp]

/-- `echo` writes a line. -/
theorem lines_echo {s : Bytes} (h : newline ∉ s) : lines (echo s) = [s] := by
  have hnewline : ∀ l ∈ [s], newline ∉ l := by simpa using h
  simpa [unlines, echo] using lines_unlines hnewline

/-- NULs are left out line by line. -/
theorem filter_unlines (ls : List Bytes) :
    (unlines ls).filter (· ≠ 0) = unlines (ls.map (List.filter (· ≠ 0))) := by
  induction ls with
  | nil => rfl
  | cons l ls ih =>
    have hcons : unlines (l :: ls) = l ++ [newline] ++ unlines ls := rfl
    rw [hcons, List.filter_append, ih, List.filter_append]
    rfl

/-- A text without NULs stays as it is. -/
theorem filter_nul {s : Bytes} (h : 0 ∉ s) : s.filter (· ≠ 0) = s :=
  List.filter_eq_self.mpr (forall_ne h)

/-- Lines without NULs stay as they are. -/
theorem map_filter_eq_self {ls : List Bytes} (h : ∀ l ∈ ls, 0 ∉ l) :
    ls.map (List.filter (· ≠ 0)) = ls := by
  have hline : ∀ l ∈ ls, l.filter (· ≠ 0) = id l := fun l hl ↦ filter_nul (h l hl)
  rw [List.map_congr_left hline, List.map_id]

/-- Lines that went into a variable are the same when `echo` writes them. -/
theorem echo_substitute {ls : List Bytes} (hls : ls ≠ [])
    (h : ∀ l ∈ ls, l ≠ [] ∧ newline ∉ l ∧ 0 ∉ l) : echo (substitute (unlines ls)) = unlines ls := by
  have hfilter : (unlines ls).filter (· ≠ 0) = unlines ls := by
    rw [filter_unlines, map_filter_eq_self fun l hl ↦ (h l hl).2.2]
  induction ls using List.reverseRecOn with
  | nil => exact absurd rfl hls
  | append_singleton ls l =>
    obtain ⟨hne, hnewline, -⟩ := h l (by simp)
    have hunlines : unlines (ls ++ [l]) = (unlines ls ++ l) ++ [newline] := by
      simp [unlines]
    have hkept : (unlines ls ++ l).rdropWhile (fun b ↦ decide (b = newline)) = unlines ls ++ l := by
      rw [List.rdropWhile_eq_self_iff]
      intro hne'
      rw [List.getLast_append_of_ne_nil _ hne]
      simpa using forall_ne hnewline _ (List.getLast_mem hne)
    rw [substitute, hfilter, hunlines, List.rdropWhile_concat_pos _ _ _ (by simp), hkept, echo]

/-- A variable that is set from one line. -/
theorem substitute_line {s : Bytes} (h : newline ∉ s) :
    substitute (unlines [s]) = s.filter (· ≠ 0) := by
  have hfilter : (unlines [s]).filter (· ≠ 0) = s.filter (· ≠ 0) ++ [newline] := by
    simp only [unlines, List.flatMap_singleton, List.filter_append]
    rfl
  rw [substitute, hfilter, List.rdropWhile_concat_pos _ _ _ (by simp), List.rdropWhile_eq_self_iff]
  intro hne
  have hlast : (s.filter (· ≠ 0)).getLast hne ∈ s := List.mem_of_mem_filter (List.getLast_mem hne)
  simpa using forall_ne h _ hlast

/-- The fields behind two words. -/
theorem fieldsFrom_three {a b s : Bytes} {d : UInt8} (ha : d ∉ a) (hb : d ∉ b) :
    fieldsFrom d 3 (a ++ d :: (b ++ d :: s)) = s := by
  rw [fieldsFrom, if_pos (by simp), List.splitOn_append_cons_self_of_not_mem ha,
    List.splitOn_append_cons_self_of_not_mem hb]
  exact List.intercalate_splitOn d

/-- The field behind two words. -/
theorem field_three {a b s : Bytes} {d : UInt8} (ha : d ∉ a) (hb : d ∉ b) :
    field d 3 (a ++ d :: (b ++ d :: s)) = s.takeWhile (· ≠ d) := by
  rw [field, if_pos (by simp), List.splitOn_append_cons_self_of_not_mem ha,
    List.splitOn_append_cons_self_of_not_mem hb]
  by_cases hs : d ∈ s
  · obtain ⟨u, v, rfl, hu⟩ := List.eq_append_cons_of_mem hs
    rw [List.splitOn_append_cons_self_of_not_mem hu, List.takeWhile_append_of_pos (forall_ne hu),
      List.takeWhile_cons_of_neg (by simp), List.append_nil]
    rfl
  · rw [List.splitOn_eq_singleton hs, List.takeWhile_eq_self_iff.mpr (forall_ne hs)]
    rfl

/-- A line has a word in it. -/
theorem contains_iff {word line : Bytes} : contains word line = true ↔ word <:+: line := by
  simp [contains, List.infix_iff_prefix_suffix, and_comm]

/-- A line that misses a byte of a word misses the word. -/
theorem contains_eq_false {word line : Bytes} {b : UInt8} (hb : b ∈ word) (h : b ∉ line) :
    contains word line = false := by
  rw [Bool.eq_false_iff]
  intro hword
  exact h ((contains_iff.mp hword).subset hb)

/-- A word without the separator lies on one side of it. -/
theorem contains_append_cons {word : Bytes} {d : UInt8} (hd : d ∉ word) (s t : Bytes) :
    contains word (s ++ d :: t) = (contains word s || contains word t) := by
  rw [Bool.eq_iff_iff, Bool.or_eq_true, contains_iff, contains_iff, contains_iff]
  constructor
  · intro h
    rcases List.infix_append_iff.mp h with h | h | ⟨u, v, rfl, hu, hv⟩
    · exact .inl h
    · rcases List.infix_cons_iff.mp h with h | h
      · cases word with
        | nil => exact .inr List.nil_infix
        | cons b word =>
          obtain rfl := (List.cons_prefix_cons.mp h).1
          exact absurd List.mem_cons_self hd
      · exact .inr h
    · cases v with
      | nil =>
        rw [List.append_nil]
        exact .inl hu.isInfix
      | cons b v =>
        obtain rfl := (List.cons_prefix_cons.mp hv).1
        exact absurd (List.mem_append_right u List.mem_cons_self) hd
  · rintro (h | h)
    · exact h.trans (List.prefix_append s (d :: t)).isInfix
    · exact h.trans ((List.suffix_cons d t).trans (List.suffix_append s (d :: t))).isInfix

/-- A variable with the text of one line was set from just that line. -/
theorem substitute_unlines_eq {ls : List Bytes} {v : Bytes}
    (h : ∀ l ∈ ls, l ≠ [] ∧ newline ∉ l ∧ 0 ∉ l) (hv : v ≠ []) (hnewline : newline ∉ v) :
    substitute (unlines ls) = v ↔ ls = [v] := by
  have hlines : ∀ ms : List Bytes, (∀ l ∈ ms, l ≠ [] ∧ newline ∉ l ∧ 0 ∉ l) → ms ≠ [] →
      lines (echo (substitute (unlines ms))) = ms := by
    intro ms hms hne
    rw [echo_substitute hne hms, lines_unlines fun l hl ↦ (hms l hl).2.1]
  constructor
  · intro hsub
    have hne : ls ≠ [] := by
      rintro rfl
      exact hv hsub.symm
    rw [← hlines ls h hne, hsub, lines_echo hnewline]
  · rintro rfl
    have hecho : lines (echo (substitute (unlines [v]))) = [v] := hlines [v] h (by simp)
    have hwhole := echo_substitute (by simp) h
    have hconcat : unlines [v] = v ++ [newline] := by simp [unlines]
    rw [hconcat, echo] at hwhole
    rw [hconcat]
    exact List.append_cancel_right hwhole

-- A terminator that has been taken would have ended the line.
private theorem ne_newline_of_mem_fetch {cur : List Taken} {s : Bytes}
    (hcur : ∀ t ∈ cur, t.1 ≠ newline) : ∀ l ∈ fetch cur s, ∀ t ∈ l, t.1 ≠ newline := by
  have hmore : ∀ {cur : List Taken} {t : Taken}, (∀ t ∈ cur, t.1 ≠ newline) → t.1 ≠ newline →
      ∀ u ∈ cur ++ [t], u.1 ≠ newline := by
    intro cur t hcur ht u hu
    rcases List.mem_append.mp hu with hu | hu
    · exact hcur u hu
    · exact List.mem_singleton.mp hu ▸ ht
  fun_induction fetch cur s with
  | case1 => simp
  | case2 cur s ih => exact ih hcur
  | case3 cur b s hb ih => exact ih (hmore hcur fun h ↦ hb h)
  | case4 cur s ih =>
    rw [List.forall_mem_cons]
    exact ⟨hcur, ih (by simp)⟩
  | case5 cur s ih => exact ih hcur
  | case6 cur b s _ _ hb _ ih => exact ih (hmore hcur fun h ↦ hb h)

/-- A text that `read` takes byte by byte. -/
def Verbatim (l : Bytes) : Prop := ∀ b ∈ l, b ≠ 0 ∧ b ≠ newline ∧ b ≠ 92

/-- Bytes that nothing has been done to. -/
def untouched (l : Bytes) : List Taken := l.map fun b ↦ (b, false)

private theorem fetch_append {l : Bytes} (hl : Verbatim l) (cur : List Taken) (s : Bytes) :
    fetch cur (l ++ s) = fetch (cur ++ untouched l) s := by
  induction l generalizing cur with
  | nil => simp [untouched]
  | cons b l ih =>
    obtain ⟨⟨hzero, hnewline, hslash⟩, hl⟩ := List.forall_mem_cons.mp hl
    have hb : fetch cur (b :: (l ++ s)) = fetch (cur ++ [(b, false)]) (l ++ s) := by
      rw [fetch]
      · exact fun _ h _ ↦ hslash h
      · exact fun _ _ h _ ↦ hslash h
      · exact fun h ↦ hnewline h
      · exact fun h ↦ hzero h
    rw [List.cons_append, hb, ih hl]
    simp [untouched]

private theorem leftover_append {l : Bytes} (hl : Verbatim l) (cur : List Taken) (s : Bytes) :
    leftover cur (l ++ s) = leftover (cur ++ untouched l) s := by
  induction l generalizing cur with
  | nil => simp [untouched]
  | cons b l ih =>
    obtain ⟨⟨hzero, hnewline, hslash⟩, hl⟩ := List.forall_mem_cons.mp hl
    have hb : leftover cur (b :: (l ++ s)) = leftover (cur ++ [(b, false)]) (l ++ s) := by
      rw [leftover]
      · exact fun h _ ↦ hslash h
      · exact fun _ h _ ↦ hslash h
      · exact fun _ _ h _ ↦ hslash h
      · exact fun h ↦ hnewline h
      · exact fun h ↦ hzero h
    rw [List.cons_append, hb, ih hl]
    simp [untouched]

/-- `read` takes the lines that have a terminator. -/
theorem fetch_unlines {ls : List Bytes} (hls : ∀ l ∈ ls, Verbatim l) {s : Bytes} (hs : Verbatim s) :
    fetch [] (unlines ls ++ s) = ls.map untouched := by
  induction ls with
  | nil =>
    have hend := fetch_append hs [] []
    rw [List.append_nil] at hend
    exact hend.trans (by rw [fetch]; rfl)
  | cons l ls ih =>
    rw [List.forall_mem_cons] at hls
    have hcons : unlines (l :: ls) ++ s = l ++ newline :: (unlines ls ++ s) := by
      simp [unlines]
    rw [hcons, fetch_append hls.1, newline, fetch, ih hls.2]
    rfl

/-- The rest of the input is what `read` fails on. -/
theorem leftover_unlines {ls : List Bytes} (hls : ∀ l ∈ ls, Verbatim l) {s : Bytes}
    (hs : Verbatim s) : leftover [] (unlines ls ++ s) = untouched s := by
  induction ls with
  | nil =>
    have hend := leftover_append hs [] []
    rw [List.append_nil] at hend
    exact hend.trans (by rw [leftover]; rfl)
  | cons l ls ih =>
    rw [List.forall_mem_cons] at hls
    have hcons : unlines (l :: ls) ++ s = l ++ newline :: (unlines ls ++ s) := by
      simp [unlines]
    rw [hcons, leftover_append hls.1, newline, leftover, ih hls.2]

private theorem readValue_untouched {l : Bytes} (hl : Verbatim l)
    (hhead : ∀ b ∈ l.head?, b ≠ 32 ∧ b ≠ 9) (hlast : ∀ b ∈ l.getLast?, b ≠ 32 ∧ b ≠ 9) :
    readValue (untouched l) = l := by
  have hblank : ∀ b : UInt8, b ≠ 32 ∧ b ≠ 9 → Taken.blank (b, false) = false := by
    rintro b ⟨hspace, htab⟩
    simp [Taken.blank, hspace, htab]
  have htake : ((untouched l).takeWhile fun t ↦ t.1 ≠ 0) = untouched l := by
    apply List.takeWhile_eq_self_iff.mpr
    intro t ht
    obtain ⟨b, hb, rfl⟩ := List.mem_map.mp ht
    exact decide_eq_true (hl b hb).1
  have hdrop : (untouched l).dropWhile Taken.blank = untouched l := by
    cases l with
    | nil => rfl
    | cons b l => exact List.dropWhile_cons_of_neg (by simp [hblank b (hhead b rfl)])
  have hrdrop : (untouched l).rdropWhile Taken.blank = untouched l := by
    rw [List.rdropWhile_eq_self_iff]
    intro hne
    have hne' : l ≠ [] := by
      rintro rfl
      exact hne rfl
    have hend : (untouched l).getLast hne = (l.getLast hne', false) := by simp [untouched]
    rw [hend, hblank _ (hlast _ (List.getLast_mem_getLast? hne'))]
    exact Bool.false_ne_true
  rw [readValue, htake, hdrop, hrdrop, untouched, List.map_map]
  exact List.map_id l

/-- A loop over `read line` takes the lines that were written. -/
theorem whileRead_unlines {ls : List Bytes} (hls : ∀ l ∈ ls, Verbatim l)
    (hhead : ∀ l ∈ ls, ∀ b ∈ l.head?, b ≠ 32 ∧ b ≠ 9)
    (hlast : ∀ l ∈ ls, ∀ b ∈ l.getLast?, b ≠ 32 ∧ b ≠ 9) : whileRead (unlines ls) = ls := by
  have hfetch := fetch_unlines hls (s := []) (by simp [Verbatim])
  rw [List.append_nil] at hfetch
  rw [whileRead, hfetch, List.map_map]
  have hvalue : ∀ l ∈ ls, (readValue ∘ untouched) l = id l := fun l hl ↦
    readValue_untouched (hls l hl) (hhead l hl) (hlast l hl)
  rw [List.map_congr_left hvalue, List.map_id]

/-- The third word of a line has a second one before it. -/
theorem readThree_ne_nil {l : List Taken} (h : (readThree l).2.2 ≠ []) :
    (readThree l).2.1 ≠ [] := by
  simp only [readThree, cutWord, ne_eq, List.map_eq_nil_iff] at h ⊢
  generalize ((l.takeWhile fun t ↦ t.1 ≠ 0).dropWhile Taken.blank).dropWhile (!·.blank) = rest at *
  cases hrest : rest.dropWhile Taken.blank with
  | nil => simp [hrest] at h
  | cons t ts =>
    have hhead : t.blank = false := by
      have hnot := List.head_dropWhile_not Taken.blank (l := rest) (by simp [hrest])
      simpa [hrest] using hnot
    simp [hhead]

/-- A value that `read` delivers has no terminator and no NUL. -/
theorem mem_whileRead {s l : Bytes} (hl : l ∈ whileRead s) : newline ∉ l ∧ 0 ∉ l := by
  obtain ⟨taken, htaken, rfl⟩ := List.mem_map.mp hl
  have hmem : ∀ b ∈ readValue taken, ∃ t ∈ taken.takeWhile fun t ↦ t.1 ≠ 0, t.1 = b := by
    intro b hb
    obtain ⟨t, ht, rfl⟩ := List.mem_map.mp hb
    have hsub := ((List.rdropWhile_prefix _ _).subset ht)
    exact ⟨t, (List.dropWhile_suffix _).subset hsub, rfl⟩
  constructor
  · intro hb
    obtain ⟨t, ht, hnewline⟩ := hmem _ hb
    have htake := (List.takeWhile_prefix _).subset ht
    exact ne_newline_of_mem_fetch (by simp) taken htaken t htake hnewline
  · intro hb
    obtain ⟨t, ht, hzero⟩ := hmem _ hb
    simpa [hzero] using List.mem_takeWhile_imp ht

end MotionPie.Shell
