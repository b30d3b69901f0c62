import MotionPie.Base.Block
import MotionPie.Package.Makedevs.MakeDirectory
import MotionPie.Shell.Sed

/-!
# Reading the lines of the table

`private_get_line_from_file`, `package/makedevs/makedevs.c:217-253`: a buffer that grows by chunks
as the characters of a line come in. The counters are of type `int`. There is always memory for a
buffer, with anything in it.
-/

namespace MotionPie.Package.Makedevs

open Base Shell

/-- What the language gives no meaning to. -/
inductive Fault
  /-- A sum that is no `int`. -/
  | overflow
  /-- A store outside of the buffer. -/
  | outside
  deriving DecidableEq

/-- The sum of two values of type `int`. -/
def addInt (m n : ℤ) : Except Fault ℤ :=
  if -0x80000000 ≤ m + n ∧ m + n ≤ 0x7fffffff then .ok (m + n) else .error .overflow

/-- A stream: what is left of it, whether an error comes behind that and not the end, and whether
the error has come. -/
structure Input where
  rest : Bytes
  broken : Bool
  ferror : Bool

/-- `idx`, `linebuf` and `linebufsz`, `makedevs.c:222-224`. -/
structure Reader where
  idx : ℤ
  linebuf : Option Bytes
  linebufsz : ℤ

/-- `GROWBY`. -/
def growby : ℤ := 80

/-- `makedevs.c:228-230`. -/
def Reader.grow (junk : ℕ → UInt8) (r : Reader) : Except Fault Reader :=
  if r.idx > r.linebufsz - 2 then do
    let linebufsz ← addInt r.linebufsz growby
    pure ⟨r.idx, some (realloc junk (r.linebuf.getD []) linebufsz.toNat), linebufsz⟩
  else pure r

/-- `linebuf[idx++] = (char)ch`, `makedevs.c:231`. -/
def Reader.put (r : Reader) (ch : UInt8) : Except Fault Reader :=
  match store (r.linebuf.getD []) r.idx ch with
  | none => .error .outside
  | some linebuf => do
    let idx ← addInt r.idx 1
    pure ⟨idx, some linebuf, r.linebufsz⟩

/-- How the loop ends. -/
inductive Ending
  | eof
  | nul
  | newline
  deriving DecidableEq

/-- The loop, `makedevs.c:226-239`: how it ends, the variables then, and what is left to read. -/
def readLoop (junk : ℕ → UInt8) (c : ℤ) : Bytes → Reader → Except Fault (Ending × Reader × Bytes)
  | [], r => .ok (.eof, r, [])
  | ch :: rest, r => do
    let r ← r.grow junk
    let r ← r.put ch
    if ch = 0 then pure (.nul, r, rest)
    else if c < 2 ∧ ch = newline then
      pure (.newline, if c ≠ 0 then { r with idx := r.idx - 1 } else r, rest)
    else readLoop junk c rest r

/-- `private_get_line_from_file`, `makedevs.c:218-248`: the buffer, or `none` for `NULL`. -/
def getLineFromFile (junk : ℕ → UInt8) (c : ℤ) (file : Input) :
    Except Fault (Option Bytes × Input) := do
  let (ending, r, rest) ← readLoop junk c file.rest ⟨0, none, 0⟩
  let file := ⟨rest, file.broken, file.ferror || (ending == .eof && file.broken)⟩
  match r.linebuf with
  | none => pure (none, file)
  | some linebuf =>
    if ending = .nul then pure (some linebuf, file)
    else if file.ferror then pure (none, file)
    else match store linebuf r.idx 0 with
      | none => .error .outside
      | some linebuf => pure (some linebuf, file)

/-- `bb_get_chomped_line_from_file`, `makedevs.c:250-253`. -/
def getChompedLine (junk : ℕ → UInt8) (file : Input) : Except Fault (Option Bytes × Input) :=
  getLineFromFile junk 1 file

/-- The strings that come before `NULL`; `none` for more than there is fuel for. -/
def getChompedLines (junk : ℕ → UInt8) : ℕ → Input → Except Fault (Option (List Bytes))
  | 0, _ => .ok none
  | fuel + 1, file => do
    match ← getChompedLine junk file with
    | (none, _) => pure (some [])
    | (some linebuf, file) =>
      let ls ← getChompedLines junk fuel file
      pure (ls.map (text linebuf :: ·))

/-! ### One line -/

/-- The most characters that are stored for a line, its newline included: the size of the buffer for
them is the last multiple of 80 that is an `int`. -/
def maxStored : ℕ := 2147483599

/-- The size of the buffer behind `n` characters. -/
def capacity (n : ℕ) : ℕ := if n = 0 then 0 else 80 * (n / 80 + 1)

/-- The variables behind the characters `t` of a line. -/
structure Reader.Holds (r : Reader) (t : Bytes) : Prop where
  idx : r.idx = t.length
  linebufsz : r.linebufsz = capacity t.length
  null : r.linebuf = none ↔ t = []
  length : (r.linebuf.getD []).length = capacity t.length
  content : (r.linebuf.getD []).take t.length = t

variable (junk : ℕ → UInt8) {r : Reader} {t u : Bytes}

/-- The variables at the start. -/
theorem holds_start : Reader.Holds ⟨0, none, 0⟩ [] :=
  ⟨rfl, rfl, by simp, rfl, rfl⟩

/-- Behind a character there is room for the terminator. -/
theorem lt_capacity {n : ℕ} (hn : n ≠ 0) : n < capacity n := by
  rw [capacity, if_neg hn]
  omega

/-- The buffer grows when there is no room for a character and the terminator. -/
theorem capacity_succ (n : ℕ) :
    capacity (n + 1) = if capacity n < n + 2 then capacity n + 80 else capacity n := by
  rw [capacity, if_neg (Nat.succ_ne_zero n), capacity]
  split <;> split <;> omega

/-- The size is an `int` as long as there are not too many characters. -/
theorem capacity_le_iff (n : ℕ) : capacity n ≤ 0x7fffffff ↔ n ≤ maxStored := by
  rw [capacity, maxStored]
  split <;> omega

/-- The buffer behind a character. -/
theorem Reader.Holds.exists_linebuf (h : r.Holds t) (ht : t ≠ []) :
    ∃ linebuf : Bytes, r.linebuf = some linebuf ∧ linebuf.length = capacity t.length ∧
      linebuf.take t.length = t := by
  obtain ⟨linebuf, hlinebuf⟩ := Option.ne_none_iff_exists'.mp (mt h.null.mp ht)
  have hlength := h.length
  have hcontent := h.content
  rw [hlinebuf, Option.getD_some] at hlength hcontent
  exact ⟨linebuf, hlinebuf, hlength, hcontent⟩

/-- The buffer is made large enough for one more character and the terminator. -/
theorem Reader.Holds.grow (h : r.Holds t) (ht : t.length < maxStored) :
    ∃ linebuf : Bytes, r.grow junk = .ok ⟨t.length, some linebuf, capacity (t.length + 1)⟩ ∧
      linebuf.length = capacity (t.length + 1) ∧ linebuf.take t.length = t := by
  have hsucc := capacity_succ t.length
  have hle : capacity (t.length + 1) ≤ 0x7fffffff := (capacity_le_iff _).mpr ht
  rw [Reader.grow, h.idx, h.linebufsz]
  by_cases hroom : capacity t.length < t.length + 2
  · rw [if_pos hroom] at hsucc
    have hgt : (t.length : ℤ) > (capacity t.length : ℤ) - 2 := by omega
    have hsum : addInt (capacity t.length) growby = .ok (capacity (t.length + 1) : ℤ) := by
      rw [addInt, growby, if_pos (by omega), hsucc]
      rfl
    rw [if_pos hgt, hsum]
    refine ⟨_, rfl, ?_, ?_⟩
    · rw [length_realloc, Int.toNat_natCast]
    · have hcells : t.length ≤ (r.linebuf.getD []).length := by
        rw [h.length]
        rcases eq_or_ne t.length 0 with hzero | hne
        · rw [hzero]
          exact Nat.zero_le _
        · exact (lt_capacity hne).le
      rw [take_realloc hcells (by rw [h.length, Int.toNat_natCast]; omega), h.content]
  · rw [if_neg hroom] at hsucc
    have hle : ¬ (t.length : ℤ) > (capacity t.length : ℤ) - 2 := by omega
    have hne : t ≠ [] := by
      rintro rfl
      exact hroom (by decide)
    obtain ⟨linebuf, hlinebuf, hlength, hcontent⟩ := h.exists_linebuf hne
    rw [if_neg hle, hsucc]
    refine ⟨linebuf, ?_, hlength, hcontent⟩
    rw [← h.idx, ← h.linebufsz, ← hlinebuf]
    rfl

/-- One character more than there can be. -/
theorem Reader.Holds.grow_overflow (h : r.Holds t) (ht : t.length = maxStored) :
    r.grow junk = .error .overflow := by
  have hsize : capacity maxStored = 0x7fffffd0 := rfl
  have hstored : maxStored = 0x7fffffcf := rfl
  rw [Reader.grow, h.idx, h.linebufsz, ht, hsize, hstored, if_pos (by decide), addInt, growby,
    if_neg (by decide)]
  rfl

/-- A character is stored. -/
theorem Reader.Holds.put (h : r.Holds t) (ht : t.length < maxStored) (ch : UInt8) :
    ∃ r' : Reader, (r.grow junk >>= fun r ↦ r.put ch) = .ok r' ∧ r'.Holds (t ++ [ch]) := by
  obtain ⟨linebuf, hgrow, hlength, hcontent⟩ := h.grow junk ht
  have hlt : t.length < linebuf.length := by
    rw [hlength]
    exact (Nat.lt_succ_self _).trans (lt_capacity (Nat.succ_ne_zero _))
  have hidx : addInt t.length 1 = .ok ((t.length + 1 : ℕ) : ℤ) := by
    have hstored : maxStored = 0x7fffffcf := rfl
    rw [addInt, if_pos (by omega)]
    rfl
  refine ⟨⟨(t.length + 1 : ℕ), some (linebuf.set t.length ch), capacity (t.length + 1)⟩, ?_, ?_⟩
  · rw [hgrow]
    change Reader.put ⟨t.length, some linebuf, capacity (t.length + 1)⟩ ch = _
    rw [Reader.put, Option.getD_some, store_of_lt hlt]
    simp only [hidx]
    rfl
  · constructor
    · simp
    · simp
    · simp
    · simp [hlength]
    · rw [Option.getD_some, List.length_append, List.length_singleton, take_set_succ hlt, hcontent]

/-- Characters that do not end the line are stored as long as there are not too many. -/
theorem Reader.Holds.readLoop_append (h : r.Holds t) (ht : t.length ≤ maxStored)
    (hu : ∀ b ∈ u, b ≠ 0 ∧ b ≠ newline) :
    if (t ++ u).length ≤ maxStored then
      ∃ r' : Reader, r'.Holds (t ++ u) ∧
        ∀ s, readLoop junk 1 (u ++ s) r = readLoop junk 1 s r'
    else ∀ s, readLoop junk 1 (u ++ s) r = .error .overflow := by
  induction u generalizing r t with
  | nil =>
    rw [List.append_nil, if_pos ht]
    exact ⟨r, h, fun s ↦ rfl⟩
  | cons b u ih =>
    rw [List.forall_mem_cons] at hu
    by_cases hlt : t.length < maxStored
    · obtain ⟨r', hput, hholds⟩ := h.put junk hlt b
      have hstep : ∀ s, readLoop junk 1 (b :: u ++ s) r = readLoop junk 1 (u ++ s) r' := by
        intro s
        rw [List.cons_append, readLoop, ← bind_assoc, hput]
        change (if b = 0 then _ else _) = _
        rw [if_neg hu.1.1, if_neg fun hb ↦ hu.1.2 hb.2]
      specialize ih hholds (by simpa using Nat.succ_le_of_lt hlt) hu.2
      rw [List.append_assoc, List.singleton_append] at ih
      split at ih
      · next hle =>
        obtain ⟨r'', hholds', hread⟩ := ih
        rw [if_pos hle]
        exact ⟨r'', hholds', fun s ↦ (hstep s).trans (hread s)⟩
      · next hle =>
        rw [if_neg hle]
        exact fun s ↦ (hstep s).trans (ih s)
    · have hmany : ¬ (t ++ b :: u).length ≤ maxStored := by
        rw [List.length_append, List.length_cons]
        omega
      rw [if_neg hmany]
      intro s
      rw [List.cons_append, readLoop, h.grow_overflow junk (Nat.le_antisymm ht (not_lt.mp hlt))]
      rfl

/-- The string that is returned behind the loop. -/
theorem getChompedLine_of_loop {s rest linebuf : Bytes} {ending : Ending}
    (hloop : readLoop junk 1 s ⟨0, none, 0⟩ = .ok (ending, r, rest)) (hending : ending ≠ .nul)
    (hlinebuf : r.linebuf = some linebuf) (hidx : r.idx = u.length)
    (hlt : u.length < linebuf.length) (htake : linebuf.take u.length = u) (hu : (0 : UInt8) ∉ u) :
    ∃ linebuf', getChompedLine junk ⟨s, false, false⟩ =
      .ok (some linebuf', ⟨rest, false, false⟩) ∧ text linebuf' = u := by
  refine ⟨linebuf.set u.length 0, ?_, ?_⟩
  · rw [getChompedLine, getLineFromFile, hloop]
    dsimp only [bind, Except.bind]
    rw [hlinebuf]
    simp only [if_neg hending, hidx, store_of_lt hlt, Bool.and_false, Bool.or_false]
    rfl
  · rw [List.set_eq_take_append_cons_drop, if_pos hlt, htake, text_cut hu]

/-- A line with a newline. -/
theorem getChompedLine_newline (hzero : (0 : UInt8) ∉ u) (hu : newline ∉ u) (rest : Bytes) :
    if (u ++ [newline]).length ≤ maxStored then
      ∃ linebuf, getChompedLine junk ⟨u ++ newline :: rest, false, false⟩ =
        .ok (some linebuf, ⟨rest, false, false⟩) ∧ text linebuf = u
    else getChompedLine junk ⟨u ++ newline :: rest, false, false⟩ = .error .overflow := by
  have hread := holds_start.readLoop_append junk (Nat.zero_le _)
    (fun b hb ↦ ⟨fun h ↦ hzero (h ▸ hb), fun h ↦ hu (h ▸ hb)⟩)
  rw [List.nil_append] at hread
  split at hread
  · next hle =>
    obtain ⟨r, hholds, hread⟩ := hread
    by_cases hlt : u.length < maxStored
    · rw [if_pos (by simpa using Nat.succ_le_of_lt hlt)]
      obtain ⟨r', hput, hholds'⟩ := hholds.put junk hlt newline
      have hloop : readLoop junk 1 (u ++ newline :: rest) ⟨0, none, 0⟩ =
          .ok (.newline, { r' with idx := r'.idx - 1 }, rest) := by
        rw [hread, readLoop, ← bind_assoc, hput]
        rfl
      obtain ⟨linebuf, hlinebuf, hlength, hcontent⟩ :=
        hholds'.exists_linebuf (List.append_ne_nil_of_right_ne_nil u (List.cons_ne_nil newline []))
      rw [List.length_append, List.length_singleton] at hlength hcontent
      have hroom : u.length < linebuf.length := by
        rw [hlength]
        exact (Nat.lt_succ_self _).trans (lt_capacity (Nat.succ_ne_zero _))
      have htake : linebuf.take u.length = u := by
        rw [← Nat.min_eq_left (Nat.le_succ u.length), ← List.take_take, hcontent, List.take_left]
      refine getChompedLine_of_loop junk hloop (by decide) hlinebuf ?_ hroom htake hzero
      rw [hholds'.idx, List.length_append, List.length_singleton]
      simp
    · have hmany : ¬ (u ++ [newline]).length ≤ maxStored := by
        simpa using Nat.lt_succ_of_le (not_lt.mp hlt)
      rw [if_neg hmany, getChompedLine, getLineFromFile, hread, readLoop,
        hholds.grow_overflow junk (Nat.le_antisymm hle (not_lt.mp hlt))]
      rfl
  · next hle =>
    have hmany : ¬ (u ++ [newline]).length ≤ maxStored := by
      rw [List.length_append, List.length_singleton]
      omega
    rw [if_neg hmany, getChompedLine, getLineFromFile, hread]
    rfl

/-- A last line without a newline. -/
theorem getChompedLine_last (hzero : (0 : UInt8) ∉ u) (hu : newline ∉ u) (hne : u ≠ []) :
    if u.length ≤ maxStored then
      ∃ linebuf, getChompedLine junk ⟨u, false, false⟩ = .ok (some linebuf, ⟨[], false, false⟩) ∧
        text linebuf = u
    else getChompedLine junk ⟨u, false, false⟩ = .error .overflow := by
  have hread := holds_start.readLoop_append junk (Nat.zero_le _)
    (fun b hb ↦ ⟨fun h ↦ hzero (h ▸ hb), fun h ↦ hu (h ▸ hb)⟩)
  rw [List.nil_append] at hread
  split at hread
  · next hle =>
    rw [if_pos hle]
    obtain ⟨r, hholds, hread⟩ := hread
    obtain ⟨linebuf, hlinebuf, hlength, hcontent⟩ := hholds.exists_linebuf hne
    have hroom : u.length < linebuf.length := by
      rw [hlength]
      exact lt_capacity (mt List.length_eq_zero_iff.mp hne)
    have hloop := hread []
    rw [List.append_nil] at hloop
    exact getChompedLine_of_loop junk hloop (by decide) hlinebuf hholds.idx hroom hcontent hzero
  · next hle =>
    have hloop := hread []
    rw [List.append_nil] at hloop
    rw [if_neg hle, getChompedLine, getLineFromFile, hloop]
    rfl

/-! ### All lines -/

/-- The string for a line comes before those for the rest of the stream. -/
theorem getChompedLines_of_line {s rest linebuf : Bytes}
    (hget : getChompedLine junk ⟨s, false, false⟩ = .ok (some linebuf, ⟨rest, false, false⟩))
    (fuel : ℕ) : getChompedLines junk (fuel + 1) ⟨s, false, false⟩ =
      (getChompedLines junk fuel ⟨rest, false, false⟩).map
        fun ls ↦ ls.map (text linebuf :: ·) := by
  rw [getChompedLines, hget]
  change (getChompedLines junk fuel ⟨rest, false, false⟩ >>= _) = _
  cases getChompedLines junk fuel ⟨rest, false, false⟩ <;> rfl

/-- A line that is too long ends the reading. -/
theorem getChompedLines_of_overflow {s : Bytes}
    (hget : getChompedLine junk ⟨s, false, false⟩ = .error .overflow) (fuel : ℕ) :
    getChompedLines junk (fuel + 1) ⟨s, false, false⟩ = .error .overflow := by
  rw [getChompedLines, hget]
  rfl

/-- The stream is read to its end as its lines, if none of them is too long; else the size of the
buffer overflows. No store goes outside of the buffer. -/
theorem getChompedLines_outcome (junk : ℕ → UInt8) {s : Bytes} (hs : (0 : UInt8) ∉ s) {fuel : ℕ}
    (hfuel : s.length < fuel) :
    getChompedLines junk fuel ⟨s, false, false⟩ =
      if ∀ l ∈ readlines s, l.length ≤ maxStored then .ok (some (lines s))
      else .error .overflow := by
  induction fuel generalizing s with
  | zero => exact absurd hfuel (Nat.not_lt_zero _)
  | succ fuel ih =>
    by_cases hnewline : newline ∈ s
    · obtain ⟨u, rest, rfl, hu⟩ := List.eq_append_cons_of_mem hnewline
      rw [List.mem_append, List.mem_cons, not_or, not_or] at hs
      have hget := getChompedLine_newline junk hs.1 hu rest
      have hlines : lines (u ++ newline :: rest) = u :: lines rest := by
        rw [lines, readlines_append_newline hu, List.map_cons, chomp_append, lines]
      simp only [readlines_append_newline hu, List.forall_mem_cons]
      by_cases hle : (u ++ [newline]).length ≤ maxStored
      · rw [if_pos hle] at hget
        obtain ⟨linebuf, hget, htext⟩ := hget
        have hshorter : rest.length < fuel := by
          rw [List.length_append, List.length_cons] at hfuel
          omega
        rw [getChompedLines_of_line junk hget, ih hs.2.2 hshorter, hlines, htext]
        simp only [hle, true_and]
        split <;> rfl
      · rw [if_neg hle] at hget
        rw [getChompedLines_of_overflow junk hget, if_neg fun h ↦ hle h.1]
    · rcases eq_or_ne s [] with rfl | hne
      · rfl
      · have hget := getChompedLine_last junk hs hnewline hne
        have hread : readlines s = [s] := by rw [readlines_rest hnewline, rest, if_neg hne]
        simp only [hread, List.forall_mem_singleton]
        by_cases hle : s.length ≤ maxStored
        · rw [if_pos hle] at hget ⊢
          obtain ⟨linebuf, hget, htext⟩ := hget
          have hpos : 0 < s.length := List.length_pos_iff.mpr hne
          have hend : getChompedLines junk fuel ⟨[], false, false⟩ = .ok (some []) := by
            rw [ih List.not_mem_nil (show 0 < fuel by omega)]
            rfl
          rw [getChompedLines_of_line junk hget, hend, htext, lines, hread, List.map_singleton,
            chomp_eq_self hnewline]
          rfl
        · rw [if_neg hle] at hget ⊢
          exact getChompedLines_of_overflow junk hget fuel

/-- The strings are the lines of the stream if and only if no line has more characters, its newline
included, than there can be. -/
theorem getChompedLines_iff (junk : ℕ → UInt8) {s : Bytes} (hs : (0 : UInt8) ∉ s) {fuel : ℕ}
    (hfuel : s.length < fuel) :
    getChompedLines junk fuel ⟨s, false, false⟩ = .ok (some (lines s)) ↔
      ∀ l ∈ readlines s, l.length ≤ maxStored := by
  rw [getChompedLines_outcome junk hs hfuel]
  split
  · next hall => exact iff_of_true rfl hall
  · next hnot => exact iff_of_false nofun hnot

/-- Three lines, of which one is empty and the last has no newline. -/
theorem getChompedLines_iff_three :
    getChompedLines (fun _ ↦ 85) 8 ⟨str "ab\n\ncd", false, false⟩ =
        .ok (some (lines (str "ab\n\ncd"))) ↔
      ∀ l ∈ readlines (str "ab\n\ncd"), l.length ≤ maxStored :=
  getChompedLines_iff (fun _ ↦ 85) (by decide) (by decide)

/-- A line of one character too many. -/
def longLine : Bytes := List.replicate (maxStored + 1) 97

/-- The size of the buffer for the long line is no `int`. -/
theorem longLine_overflow : (0 : UInt8) ∉ longLine ∧
    (∀ junk, getChompedLine junk ⟨longLine, false, false⟩ = .error .overflow) ∧
    ∀ junk fuel, getChompedLines junk fuel ⟨longLine, false, false⟩ ≠
      .ok (some (lines longLine)) := by
  have hmem : ∀ b : UInt8, b ≠ 97 → b ∉ longLine :=
    fun b hb h ↦ hb (List.eq_of_mem_replicate h)
  have hlength : longLine.length = maxStored + 1 := List.length_replicate
  have hlong : ¬ longLine.length ≤ maxStored := by
    rw [hlength]
    exact Nat.not_succ_le_self maxStored
  have hne : longLine ≠ [] := List.ne_nil_of_length_eq_add_one hlength
  have hzero := hmem 0 (by decide)
  have hnewline := hmem newline (by decide)
  -- the line is not to be evaluated
  generalize longLine = s at *
  have hget : ∀ junk, getChompedLine junk ⟨s, false, false⟩ = .error .overflow := by
    intro junk
    have h := getChompedLine_last junk hzero hnewline hne
    rwa [if_neg hlong] at h
  refine ⟨hzero, hget, fun junk fuel ↦ ?_⟩
  cases fuel with
  | zero => exact nofun
  | succ fuel =>
    rw [getChompedLines_of_overflow junk (hget junk)]
    exact nofun

end MotionPie.Package.Makedevs
