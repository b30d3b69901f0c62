import MotionPie.Package.Motioneye.RoundTrip
import MotionPie.Shell.Text

/-!
# The port that the watchdog polls

`board/common/overlay/etc/init.d/S95motioneye:13-15` takes the port from `motioneye.conf` with
an unanchored pattern, so it sees `port` and a number in any line and does not see a line that
Python reads with more than one blank, a sign or no terminator.
-/

namespace MotionPie.Board.Common.S95motioneye

open Base Shell Package.Motioneye.Extractl

/-- `port [[:digit:]]+`, with the text of the match. -/
def portPattern : Pattern UInt8 Bytes := fun s ↦
  let digits := (s.drop 5).takeWhile isDigit
  if (str "port ").isPrefixOf s && !digits.isEmpty then
    some (str "port " ++ digits, 5 + digits.length)
  else none

/-- `opts`: `cat "$conf" | while read line; do echo "--$line"; done`. -/
def opts (conf : Bytes) : Bytes :=
  substitute ((whileRead conf).flatMap fun line ↦ echo (str "--" ++ line))

/-- `port`: `echo "$opts" | grep -oE 'port [[:digit:]]+' | cut -d ' ' -f 2`. -/
def port (conf : Bytes) : Bytes :=
  substitute (cut (field 32 2) (grepOnly portPattern (echo (opts conf))))

/-! ### What the pattern finds -/

/-- The digits behind `port `. -/
def number (s : Bytes) : Bytes := (s.drop 5).takeWhile isDigit

/-- Whether `port ` and a digit stand here. -/
def mark (s : Bytes) : Bool := (str "port ").isPrefixOf s && !(number s).isEmpty

/-- All places in the lines that `read` delivers at which `port ` and a digit stand. -/
def marks (conf : Bytes) : List Bytes :=
  (whileRead conf).flatMap fun line ↦ line.tails.filter mark

/-- The pattern matches at a mark. -/
theorem portPattern_eq (s : Bytes) :
    portPattern s =
      if mark s then some (str "port " ++ number s, 5 + (number s).length) else none := rfl

/-- A match starts with the letter `p`. -/
theorem portPattern_of_head {s : Bytes} (h : s.head? ≠ some 112) : portPattern s = none := by
  have hnot : (str "port ").isPrefixOf s = false := by
    cases s with
    | nil => rfl
    | cons b s =>
      have hb : (112 : UInt8) ≠ b := by simpa [eq_comm] using h
      simp [str, List.isPrefixOf, hb]
  simp [portPattern_eq, mark, hnot]

/-- A mark is the word, digits and a rest. -/
theorem mark_eq_true {s : Bytes} (h : mark s = true) :
    ∃ t, s = str "port " ++ number s ++ t ∧ number s ≠ [] := by
  simp only [mark, Bool.and_eq_true, Bool.not_eq_true', List.isEmpty_eq_false_iff] at h
  obtain ⟨t, rfl⟩ := List.isPrefixOf_iff_prefix.mp h.1
  refine ⟨t.dropWhile isDigit, ?_, h.2⟩
  have hnumber : number (str "port " ++ t) = t.takeWhile isDigit := rfl
  rw [hnumber, List.append_assoc, List.takeWhile_append_dropWhile]

/-- Behind the word there are digits only. -/
theorem isDigit_of_mem_number {s : Bytes} {b : UInt8} (hb : b ∈ number s) : isDigit b = true :=
  List.mem_takeWhile_imp hb

/-- No match begins inside another one. -/
theorem apart_portPattern : Apart portPattern := by
  apply apart_of_first (a := 112) fun s ↦ portPattern_of_head
  intro s b n hm
  rw [portPattern_eq] at hm
  split at hm
  · next hmark =>
    obtain ⟨t, hs, -⟩ := mark_eq_true hmark
    have hn : n = (str "port " ++ number s).length := by
      rw [List.length_append]
      exact (Prod.mk.inj (Option.some.inj hm)).2.symm
    have htake : s.take n = str "port " ++ number s := by
      calc s.take n = (str "port " ++ number s ++ t).take n := congrArg (List.take n) hs
        _ = str "port " ++ number s := List.take_left' hn.symm
    rw [htake]
    intro hp
    rcases List.mem_append.mp (show (112 : UInt8) ∈ str "ort " ++ number s from hp) with hp | hp
    · exact absurd hp (by decide)
    · exact absurd (isDigit_of_mem_number hp) (by decide)
  · cases hm

/-- `cut` takes the digits of a match. -/
theorem field_match (s : Bytes) : field 32 2 (str "port " ++ number s) = number s := by
  have hword : str "port " ++ number s = str "port" ++ 32 :: number s := rfl
  have hblank : (32 : UInt8) ∉ number s :=
    fun hmem ↦ absurd (isDigit_of_mem_number hmem) (by decide)
  have hsplit : (str "port" ++ 32 :: number s).splitOn 32 = [str "port", number s] := by
    rw [List.splitOn_append_cons_self_of_not_mem (by decide), List.splitOn_eq_singleton hblank]
  rw [field, hword, hsplit, if_pos (by simp)]
  rfl

/-- The matches in a line that `opts` holds. -/
theorem scan_dashes (line : Bytes) :
    scan portPattern (str "--" ++ line) =
      (line.tails.filter mark).map fun s ↦ str "port " ++ number s := by
  have hdashes : ∀ i < (str "--").length, portPattern ((str "--" ++ line).drop i) = none := by
    intro i hi
    apply portPattern_of_head
    match i, hi with
    | 0, _ => simp [str]
    | 1, _ => simp [str]
  rw [scan_eq_matchesAt apart_portPattern (by rfl), matchesAt_append hdashes, matchesAt,
    ← List.filterMap_eq_map, ← List.filterMap_eq_filter, List.filterMap_filterMap]
  apply List.filterMap_congr
  intro s hs
  cases hmark : mark s <;> simp [portPattern_eq, hmark, Option.guard]

/-- The lines of the options hold the same marks as those that `read` delivers. -/
theorem flatMap_scan_opts (conf : Bytes) :
    (lines (echo (opts conf))).flatMap (scan portPattern) =
      (marks conf).map fun s ↦ str "port " ++ number s := by
  have hopts : opts conf = substitute (unlines ((whileRead conf).map (str "--" ++ ·))) := by
    rw [opts, unlines, List.flatMap_map]
    rfl
  have hline : ∀ l ∈ (whileRead conf).map (str "--" ++ ·), l ≠ [] ∧ newline ∉ l ∧ 0 ∉ l := by
    intro l hl
    obtain ⟨line, hline, rfl⟩ := List.mem_map.mp hl
    obtain ⟨hnewline, hzero⟩ := mem_whileRead hline
    have hdashes : newline ∉ str "--" ∧ 0 ∉ str "--" := by decide
    exact ⟨by simp [str], by simp [hnewline, hdashes], by simp [hzero, hdashes]⟩
  rw [hopts, marks, List.map_flatMap]
  cases hread : whileRead conf with
  | nil => rfl
  | cons line rest =>
    rw [← hread, echo_substitute (by simp [hread]) hline,
      lines_unlines fun l hl ↦ (hline l hl).2.1, List.flatMap_map]
    exact List.flatMap_congr fun l _ ↦ scan_dashes l

/-- The numbers at the marks go into the variable. -/
theorem port_eq (conf : Bytes) : port conf = substitute (unlines ((marks conf).map number)) := by
  have hmatch : ∀ l ∈ (marks conf).map (fun s ↦ str "port " ++ number s), newline ∉ l := by
    intro l hl
    obtain ⟨s, -, rfl⟩ := List.mem_map.mp hl
    intro hmem
    rcases List.mem_append.mp hmem with hmem | hmem
    · exact absurd hmem (by decide)
    · exact absurd (isDigit_of_mem_number hmem) (by decide)
  rw [port, grepOnly, flatMap_scan_opts, cut, lines_unlines hmatch, List.map_map]
  congr 3
  ext1 s
  exact field_match s

/-! ### The port that Python reads -/

/-- The last port line decides, and 80 is read when there is none. -/
theorem last_port {conf : Bytes} {prereleases : Bool} {t : Settings}
    (h : getMotioneyeSettings ⟨some conf, prereleases⟩ = .ok t) :
    (values (str "port") (readlines conf)).getLast?.elim (some 80) toInt = some t.port := by
  obtain ⟨hport, rfl⟩ := getMotioneyeSettings_eq_ok.mp h
  change ∀ v ∈ values (str "port") (readlines conf), toInt v ≠ none at hport
  change _ = some (lastD (fun v ↦ (toInt v).getD 0) 80 (values (str "port") (readlines conf)))
  rw [lastD]
  cases hlast : (values (str "port") (readlines conf)).getLast? with
  | none => rfl
  | some v =>
    obtain ⟨n, hn⟩ := Option.ne_none_iff_exists'.mp (hport v (List.mem_of_getLast? hlast))
    simp [hn]

/-- The numbers at the marks are lines for the shell. -/
theorem line_number {conf l : Bytes} (hl : l ∈ (marks conf).map number) :
    l ≠ [] ∧ newline ∉ l ∧ 0 ∉ l := by
  obtain ⟨s, hs, rfl⟩ := List.mem_map.mp hl
  obtain ⟨line, -, hs⟩ := List.mem_flatMap.mp hs
  obtain ⟨-, -, hne⟩ := mark_eq_true (List.mem_filter.mp hs).2
  exact ⟨hne, fun hb ↦ absurd (isDigit_of_mem_number hb) (by decide),
    fun hb ↦ absurd (isDigit_of_mem_number hb) (by decide)⟩

/-- Digits are no negative number. -/
theorem number_eq_showInt {s : Bytes} {p : Int} (h : number s = showInt p) : ∃ n : Nat, p = n := by
  cases p with
  | ofNat n => exact ⟨n, rfl⟩
  | negSucc n =>
    have hsign : (45 : UInt8) ∈ number s := by
      rw [h]
      exact List.mem_cons_self
    exact absurd (isDigit_of_mem_number hsign) (by decide)

/-- One number follows the word `port` in the file, and it is the one that Python reads, written
without leading zeros. -/
structure Polled (conf : Bytes) (n : Nat) : Prop where
  once : ∃ s, marks conf = [s] ∧ number s = showNat n
  last : (values (str "port") (readlines conf)).getLast?.elim (some 80) toInt = some (n : Int)

/-- The watchdog polls the port that the server uses if and only if the file names one number. -/
theorem port_eq_iff {conf : Bytes} {prereleases : Bool} {t : Settings}
    (h : getMotioneyeSettings ⟨some conf, prereleases⟩ = .ok t) :
    port conf = showInt t.port ↔ ∃ n, Polled conf n := by
  have hlast := last_port h
  have hnewline : newline ∉ showInt t.port :=
    fun hb ↦ absurd (isSpace_of_mem_showInt hb) (by decide)
  rw [port_eq, substitute_unlines_eq (fun l ↦ line_number) (showInt_ne_nil _) hnewline]
  constructor
  · intro hone
    obtain ⟨s, hs, hnumber⟩ := List.map_eq_singleton_iff.mp hone
    obtain ⟨n, hn⟩ := number_eq_showInt hnumber
    rw [hn] at hnumber hlast
    exact ⟨n, ⟨s, hs, hnumber⟩, hlast⟩
  · rintro ⟨n, ⟨s, hs, hnumber⟩, hn⟩
    have hport : t.port = n := Option.some.inj (hlast.symm.trans hn)
    rw [hs, hport, List.map_singleton, hnumber]
    rfl

/-- A file with a port line alone. -/
theorem port_eq_iff_single :
    port (str "port 80\n") = showInt 80 ↔ ∃ n, Polled (str "port 80\n") n :=
  port_eq_iff (show getMotioneyeSettings ⟨some (str "port 80\n"), false⟩ =
    .ok ⟨80, str "/usr/bin/motion", false, false, false⟩ by decide)

/-- A comment that mentions another port: two lines go into the variable. -/
theorem port_commented :
    getMotioneyeSettings ⟨some (str "# port 8765\nport 80\n"), false⟩ =
        .ok ⟨80, str "/usr/bin/motion", false, false, false⟩ ∧
      port (str "# port 8765\nport 80\n") = str "8765\n80" ∧
      port (str "# port 8765\nport 80\n") ≠ showInt 80 := by
  decide

end MotionPie.Board.Common.S95motioneye
