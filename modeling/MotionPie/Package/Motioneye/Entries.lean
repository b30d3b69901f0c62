import MotionPie.Package.Motioneye.Extractl

/-!
# The entries of motioneye.conf

A line with a blank in it is an entry: a name and a value. The reader goes by the entries, the
writers recognise those without a blank in the value. What has been written as lines is read
back with the same entries.
-/

namespace MotionPie.Package.Motioneye.Extractl

open Base

/-- What a reader sees in a line. -/
def entry (line : Bytes) : Option (Bytes × Bytes) :=
  match split 32 1 (strip line) with
  | [name, value] => some (dashed name, value)
  | _ => none

/-- The values that the lines give to a name, first to last. -/
def values (name : Bytes) (lines : List Bytes) : List Bytes :=
  lines.filterMap fun line ↦ (entry line).bind fun e ↦ if e.1 = name then some e.2 else none

/-- A value that the writers recognise. -/
def single (value : Bytes) : Bool := decide (32 ∉ value)

/-- A value that can be read back from a line. -/
structure Readable (value : Bytes) : Prop where
  ne_nil : value ≠ []
  newline : newline ∉ value
  last : ∀ b ∈ value.getLast?, isSpace b = false

/-- At most one terminator, at the end. -/
def IsLine (line : Bytes) : Prop := ∃ l, newline ∉ l ∧ (line = l ∨ line = l ++ [newline])

/-! ### Entries of a line -/

/-- A line is an entry when it has a blank inside. -/
theorem entry_eq_some {line n v : Bytes} :
    entry line = some (n, v) ↔
      ∃ name, 32 ∉ name ∧ strip line = name ++ 32 :: v ∧ dashed name = n := by
  unfold entry
  constructor
  · intro h
    split at h
    · next name value hsplit =>
      obtain ⟨rfl, rfl⟩ : dashed name = n ∧ value = v := by simpa using h
      obtain ⟨hname, hline⟩ := split_one_eq.mp hsplit
      exact ⟨name, hname, hline, rfl⟩
    · cases h
  · rintro ⟨name, hname, hline, rfl⟩
    rw [split_one_eq.mpr ⟨hname, hline⟩]

/-- A name that is read back as it was written. -/
structure IsName (name : Bytes) : Prop where
  ne_nil : name ≠ []
  head : ∀ b ∈ name.head?, isSpace b = false
  blank : 32 ∉ name
  newline : newline ∉ name
  dashed : dashed name = name

/-- A line that sets a name is an entry of the name. -/
theorem entry_set {name v : Bytes} (hname : IsName name) (hv : Readable v) :
    entry (name ++ 32 :: v) = some (name, v) := by
  refine entry_eq_some.mpr ⟨name, hname.blank, strip_eq_self ?_ ?_, hname.dashed⟩
  · rw [List.head?_append_of_ne_nil _ hname.ne_nil]
    exact hname.head
  · rw [List.getLast?_append_cons, List.getLast?_cons_of_ne_nil hv.ne_nil]
    exact hv.last

/-- A line that sets a name has no terminator. -/
theorem isLine_set {name v : Bytes} (hname : IsName name) (hv : Readable v) :
    IsLine (name ++ 32 :: v) := by
  have hnot : newline ∉ name ++ 32 :: v := by
    simpa [hname.newline, hv.newline] using (show newline ≠ 32 by decide)
  exact ⟨_, hnot, .inl rfl⟩

/-- A number can be read back. -/
theorem readable_showInt (n : Int) : Readable (showInt n) where
  ne_nil := showInt_ne_nil n
  newline h := absurd (isSpace_of_mem_showInt h) (by decide)
  last b hb := isSpace_of_mem_showInt (List.mem_of_mem_getLast? hb)

/-- The value of an entry can be read back. -/
theorem readable_of_entry {line n v : Bytes} (hline : IsLine line)
    (h : entry line = some (n, v)) : Readable v := by
  obtain ⟨name, hname, hstrip, rfl⟩ := entry_eq_some.mp h
  have hlast := getLast?_strip (s := line)
  rw [hstrip, List.getLast?_append_cons] at hlast
  have hne : v ≠ [] := by
    rintro rfl
    exact absurd (hlast 32 rfl) (by decide)
  have hnewline := newline_notMem_strip hline
  rw [hstrip] at hnewline
  rw [List.getLast?_cons_of_ne_nil hne] at hlast
  exact ⟨hne, fun hmem ↦ hnewline (by simp [hmem]), hlast⟩

/-- A terminator does not change the entry. -/
theorem entry_terminated (line : Bytes) : entry (terminated line) = entry line := by
  unfold terminated
  split
  · rfl
  · unfold entry
    rw [strip_append_newline]

/-- A line with an entry is not blank. -/
theorem strip_ne_nil_of_entry {line : Bytes} {e : Bytes × Bytes} (h : entry line = some e) :
    strip line ≠ [] := by
  obtain ⟨name, -, hstrip, -⟩ := entry_eq_some.mp (show entry line = some (e.1, e.2) from h)
  simp [hstrip]

/-! ### Values of a file -/

/-- The values of lines in two parts. -/
@[simp] theorem values_append (name : Bytes) (ls ms : List Bytes) :
    values name (ls ++ ms) = values name ls ++ values name ms := List.filterMap_append

/-- No lines, no values. -/
@[simp] theorem values_nil (name : Bytes) : values name [] = [] := rfl

/-- A line without an entry has no value. -/
theorem values_cons_of_none {name line : Bytes} (h : entry line = none) (ls : List Bytes) :
    values name (line :: ls) = values name ls := by
  simp [values, h]

/-- An entry of another name has no value here. -/
theorem values_cons_of_ne {name line n v : Bytes} (h : entry line = some (n, v)) (hn : n ≠ name)
    (ls : List Bytes) : values name (line :: ls) = values name ls := by
  simp [values, h, hn]

/-- An entry of the name has its value here. -/
theorem values_cons_self {name line v : Bytes} (h : entry line = some (name, v))
    (ls : List Bytes) : values name (line :: ls) = v :: values name ls := by
  simp [values, h]

/-- A value comes from an entry of a line. -/
theorem mem_values {name v : Bytes} {ls : List Bytes} :
    v ∈ values name ls ↔ ∃ line ∈ ls, entry line = some (name, v) := by
  simp only [values, List.mem_filterMap, Option.bind_eq_some_iff]
  constructor
  · rintro ⟨line, hline, ⟨n, u⟩, he, hu⟩
    obtain ⟨rfl, rfl⟩ : n = name ∧ u = v := by simpa using hu
    exact ⟨line, hline, he⟩
  · rintro ⟨line, hline, he⟩
    exact ⟨line, hline, (name, v), he, if_pos rfl⟩

/-- The values of a file can be read back. -/
theorem readable_of_mem_values {name v : Bytes} {fs : Files} (h : v ∈ values name fs.lines) :
    Readable v := by
  obtain ⟨line, hline, he⟩ := mem_values.mp h
  exact readable_of_entry (mem_readlines hline) he

/-! ### Writing lines -/

-- The first line that is written is the first line that is read.
private theorem readlines_terminated_append {line : Bytes} (h : IsLine line) (s : Bytes) :
    readlines (terminated line ++ s) = terminated line :: readlines s := by
  obtain ⟨l, hl, hline⟩ := h
  have hterm : terminated line = l ++ [newline] := by
    unfold terminated
    rcases hline with rfl | rfl
    · rw [if_neg fun hlast : line.getLast? = some newline ↦ hl (List.mem_of_mem_getLast? hlast)]
    · rw [if_pos List.getLast?_concat]
  rw [hterm, List.append_assoc, List.singleton_append, readlines_append_newline hl]

/-- Lines that have been written are read back, each with a terminator, but for blank ones. -/
theorem readlines_written {ls : List Bytes} (h : ∀ l ∈ ls, IsLine l) :
    readlines (written ls) = (ls.filter fun l ↦ strip l ≠ []).map terminated := by
  have hkept : ∀ ms : List Bytes, (∀ l ∈ ms, IsLine l) →
      readlines (ms.flatMap terminated) = ms.map terminated := by
    intro ms
    induction ms with
    | nil => intro _; rfl
    | cons l ms ih =>
      intro hms
      rw [List.flatMap_cons, readlines_terminated_append (hms l List.mem_cons_self), List.map_cons,
        ih fun m hm ↦ hms m (List.mem_cons_of_mem l hm)]
  exact hkept _ fun l hl ↦ h l (List.mem_of_mem_filter hl)

/-- Writing lines keeps their values. -/
theorem values_written {ls : List Bytes} (h : ∀ l ∈ ls, IsLine l) (name : Bytes) :
    values name (readlines (written ls)) = values name ls := by
  rw [readlines_written h]
  clear h
  induction ls with
  | nil => rfl
  | cons l ls ih =>
    cases he : entry l with
    | none =>
      rw [values_cons_of_none he]
      by_cases hblank : strip l = []
      · rw [List.filter_cons_of_neg (by simpa using hblank), ih]
      · rw [List.filter_cons_of_pos (by simpa using hblank), List.map_cons,
          values_cons_of_none ((entry_terminated l).trans he), ih]
    | some e =>
      obtain ⟨n, v⟩ := e
      have hterm := (entry_terminated l).trans he
      rw [List.filter_cons_of_pos (by simpa using strip_ne_nil_of_entry he), List.map_cons]
      by_cases hn : n = name
      · subst hn
        rw [values_cons_self he, values_cons_self hterm, ih]
      · rw [values_cons_of_ne he hn, values_cons_of_ne hterm hn, ih]

end MotionPie.Package.Motioneye.Extractl
