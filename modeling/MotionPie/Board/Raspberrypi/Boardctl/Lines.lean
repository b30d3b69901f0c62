import MotionPie.Board.Raspberrypi.Boardctl

/-!
# The lines of config.txt

The name that the getter finds in an active line is the name that the setter finds. So after the
setter has written, every active line with a managed name carries the new value.
-/

namespace MotionPie.Board.Raspberrypi.Boardctl

open Base
open Package.Motioneye.Watchctl (stripByte)
open Package.Motioneye.Extractl (terminated written IsLine readlines_written)

/-- What the getter reads in a line. -/
def reads (line : Bytes) : Option (Bytes × Bytes) :=
  if isActive line then assignment (strip line) else none

/-- A text that is read as it is written. -/
structure Clean (text : Bytes) : Prop where
  strip : strip text = text
  newline : newline ∉ text

/-- A name that can be written. -/
structure IsName (name : Bytes) : Prop extends Clean name where
  ne_nil : name ≠ []
  hash : name.head? ≠ some 35
  equals : 61 ∉ name

variable {s : Settings} {parts : Parts} {line name value : Bytes}

theorem readLine_eq (vals : Values) (line : Bytes) :
    readLine vals line = match reads line with
      | some (name, value) => readValue vals name value
      | none => .ok vals := by
  unfold readLine reads
  split <;> rfl

theorem readLine_of_none {line : Bytes} (h : reads line = none) (vals : Values) :
    readLine vals line = .ok vals := by
  rw [readLine_eq, h]

theorem readLine_of_some {line name value : Bytes} (h : reads line = some (name, value))
    (vals : Values) : readLine vals line = readValue vals name value := by
  rw [readLine_eq, h]

/-! ### Terminators -/

@[simp] theorem strip_terminated (line : Bytes) : strip (terminated line) = strip line := by
  unfold terminated
  split
  · rfl
  · rw [strip_append_newline]

@[simp] theorem reads_terminated (line : Bytes) : reads (terminated line) = reads line := by
  unfold reads isActive
  rw [strip_terminated]

@[simp] theorem nameOf_terminated (line : Bytes) : nameOf (terminated line) = nameOf line := by
  simp only [nameOf, strip_terminated]

/-! ### Names -/

theorem assignment_eq_some :
    assignment line = some (name, value) ↔
      ∃ n v, 61 ∉ n ∧ line = n ++ 61 :: v ∧ strip n = name ∧ strip v = value := by
  unfold assignment
  constructor
  · intro h
    split at h
    · next n v hsplit =>
      obtain ⟨rfl, rfl⟩ : strip n = name ∧ strip v = value := by simpa using h
      obtain ⟨hn, hline⟩ := split_one_eq.mp hsplit
      exact ⟨n, v, hn, hline, rfl, rfl⟩
    · cases h
  · rintro ⟨n, v, hn, hline, rfl, rfl⟩
    rw [split_one_eq.mpr ⟨hn, hline⟩]

/-- The setter finds the name that the getter finds. -/
theorem nameOf_of_reads (h : reads line = some (name, value)) : nameOf line = some name := by
  unfold reads at h
  split at h
  · next hactive =>
    obtain ⟨n, v, hn, hline, rfl, -⟩ := assignment_eq_some.mp h
    obtain ⟨hne, hhash⟩ : strip line ≠ [] ∧ (strip line).head? ≠ some 35 := by
      simpa [isActive] using hactive
    have hdrop : (strip line).dropWhile (· = 35) = strip line := by
      apply List.dropWhile_eq_self_iff.mpr
      intro hlength
      rw [List.head?_eq_getElem?, List.getElem?_eq_getElem hlength] at hhash
      simpa using hhash
    have hstrip : stripByte 35 (strip line) = n ++ 61 :: v.rdropWhile (· = 35) := by
      rw [stripByte, hdrop, hline, rdropWhile_append_cons (by decide)]
    rw [nameOf, if_neg hne, assignment_eq_some.mpr ⟨n, _, hn, hstrip, rfl, rfl⟩]
    rfl
  · cases h

/-- The name in a line has neither white space at its ends nor a terminator. -/
theorem clean_nameOf (hline : IsLine line) (h : nameOf line = some name) :
    Clean name ∧ 61 ∉ name := by
  unfold nameOf at h
  split at h
  · cases h
  · obtain ⟨⟨n', v'⟩, hassign, rfl⟩ := Option.map_eq_some_iff.mp h
    obtain ⟨n, v, hn, hsplit, rfl, -⟩ := assignment_eq_some.mp hassign
    refine ⟨⟨strip_strip n, fun hmem ↦ newline_notMem_strip hline ?_⟩,
      fun hmem ↦ hn (mem_of_mem_strip hmem)⟩
    have hwhole : newline ∈ stripByte 35 (strip line) := by
      rw [hsplit]
      exact List.mem_append_left _ (mem_of_mem_strip hmem)
    exact (List.dropWhile_suffix _).subset ((List.rdropWhile_prefix _ _).subset hwhole)

/-- The names that the setter gives values to. -/
def Managed (name : Bytes) : Prop :=
  str "gpu_mem" <+: name ∨ name = str "arm_freq" ∨ name = str "gpu_freq" ∨
    name = str "core_freq" ∨ name = str "sdram_freq" ∨ name = str "over_voltage" ∨
    name = str "disable_camera_led"

instance : DecidablePred Managed := fun name ↦
  inferInstanceAs (Decidable (str "gpu_mem" <+: name ∨ _ ∨ _ ∨ _ ∨ _ ∨ _ ∨ _))

theorem newValue_eq_none_iff : newValue s parts name = none ↔ ¬ Managed name := by
  unfold newValue Managed
  rw [← List.isPrefixOf_iff_prefix]
  split_ifs <;> grind

theorem managed_of_newValue (h : newValue s parts name = some value) : Managed name := by
  by_contra hfree
  rw [newValue_eq_none_iff.mpr hfree] at h
  cases h

/-- A managed name is not empty and starts with no hash. -/
theorem isName_of_managed (hclean : Clean name) (hequals : 61 ∉ name)
    (h : Managed name) : IsName name := by
  suffices hhead : ∃ b t, name = b :: t ∧ b ≠ 35 by
    obtain ⟨b, t, rfl, hb⟩ := hhead
    exact ⟨hclean, by simp, by simpa using hb, hequals⟩
  rcases h with ⟨t, rfl⟩ | rfl | rfl | rfl | rfl | rfl | rfl
  all_goals exact ⟨_, _, rfl, by decide⟩

/-! ### Settings -/

/-- A line that has been set has no terminator, and is read as it was set. -/
theorem reads_setting (hname : IsName name) (hvalue : Clean value) :
    IsLine (setting name value) ∧ reads (setting name value) = some (name, value) ∧
      strip (setting name value) ≠ [] := by
  have hhead := hname.strip
  have hstrip : strip (setting name value) = setting name value := by
    apply strip_eq_self
    · rw [setting, List.head?_append_of_ne_nil _ hname.ne_nil, ← hname.strip]
      exact head?_strip
    · rw [setting, List.getLast?_append_cons]
      cases hv : value with
      | nil =>
        intro b hb
        cases hb
        rfl
      | cons b v =>
        rw [← hv, List.getLast?_cons_of_ne_nil (by rw [hv]; simp), ← hvalue.strip]
        exact getLast?_strip
  have hne : setting name value ≠ [] := by simp [setting]
  have hactive : isActive (setting name value) = true := by
    rw [isActive, hstrip]
    have hhash : (setting name value).head? ≠ some 35 := by
      rw [setting, List.head?_append_of_ne_nil _ hname.ne_nil]
      exact hname.hash
    simpa [hne] using hhash
  refine ⟨⟨_, ?_, .inl rfl⟩, ?_, by rwa [hstrip]⟩
  · simpa [setting, hname.newline, hvalue.newline] using (show newline ≠ 61 by decide)
  · rw [reads, if_pos hactive, hstrip]
    exact assignment_eq_some.mpr
      ⟨name, value, hname.equals, rfl, hname.strip, hvalue.strip⟩

/-- The setter finds the name in a line that has been set. -/
theorem nameOf_setting (hname : IsName name) (hvalue : Clean value) :
    nameOf (setting name value) = some name :=
  nameOf_of_reads (reads_setting hname hvalue).2.1

/-- The parts of a preset can be written. -/
structure Parts.Clean (parts : Parts) : Prop where
  armFreq : Boardctl.Clean parts.armFreq
  gpuFreq : Boardctl.Clean parts.gpuFreq
  sdramFreq : Boardctl.Clean parts.sdramFreq
  overVoltage : Boardctl.Clean parts.overVoltage

theorem clean_showInt (n : Int) : Clean (showInt n) := by
  refine ⟨strip_of_solid fun b hb ↦ isSpace_of_mem_showInt hb, fun hmem ↦ ?_⟩
  exact absurd (isSpace_of_mem_showInt hmem) (by decide)

theorem clean_ledText (cameraLed : Bool) : Clean (ledText cameraLed) := by
  cases cameraLed
  · exact ⟨by decide, by decide⟩
  · exact ⟨by decide, by decide⟩

/-- What the setter gives to a name can be written. -/
theorem clean_newValue (hparts : parts.Clean) (h : newValue s parts name = some value) :
    Clean value := by
  unfold newValue at h
  split_ifs at h <;> cases h
  · exact clean_showInt _
  · exact hparts.armFreq
  · exact hparts.gpuFreq
  · exact hparts.sdramFreq
  · exact hparts.overVoltage
  · exact clean_ledText _

/-- Every name that is appended gets the value that the setter gives to it. -/
theorem newValue_required : ∀ r ∈ required s parts, newValue s parts r.1 = some r.2 := by
  simp only [required, List.forall_mem_cons]
  exact ⟨rfl, rfl, rfl, rfl, rfl, rfl, rfl, rfl, fun _ h ↦ by cases h⟩

theorem isName_required : ∀ r ∈ required s parts, IsName r.1 := by
  intro r hr
  have hmanaged := managed_of_newValue (newValue_required r hr)
  have hclean : Clean r.1 ∧ 61 ∉ r.1 := by
    revert r
    simp only [required, List.forall_mem_cons]
    refine ⟨?_, ?_, ?_, ?_, ?_, ?_, ?_, ?_, fun _ h ↦ by cases h⟩
    all_goals exact fun _ ↦ ⟨⟨by decide, by decide⟩, by decide⟩
  exact isName_of_managed hclean.1 hclean.2 hmanaged

/-! ### The lines that are written -/

/-- A line whose name is managed, if it has one, is set; another one is kept. -/
theorem rewriteLine_cases (hparts : parts.Clean) (hline : IsLine line) :
    (rewriteLine s parts line = line ∧ ∀ name ∈ nameOf line, ¬ Managed name) ∨
      ∃ name value, nameOf line = some name ∧ IsName name ∧ Clean value ∧
        newValue s parts name = some value ∧ rewriteLine s parts line = setting name value := by
  unfold rewriteLine
  cases hname : nameOf line with
  | none => exact .inl ⟨rfl, fun _ h ↦ by cases h⟩
  | some name =>
    cases hvalue : newValue s parts name with
    | none =>
      left
      refine ⟨by simp [hvalue], fun n hn ↦ ?_⟩
      cases hn
      exact newValue_eq_none_iff.mp hvalue
    | some value =>
      right
      obtain ⟨hclean, hequals⟩ := clean_nameOf hline hname
      exact ⟨name, value, rfl, isName_of_managed hclean hequals (managed_of_newValue hvalue),
        clean_newValue hparts hvalue, hvalue, by simp [hvalue]⟩

/-- A line that is written is an old line whose name is not managed, or has been set. -/
theorem mem_newLines_cases (hparts : parts.Clean) {lines : List Bytes}
    (hlines : ∀ l ∈ lines, IsLine l) (h : line ∈ newLines s parts lines) :
    (line ∈ lines ∧ ∀ name ∈ nameOf line, ¬ Managed name) ∨
      ∃ name value, IsName name ∧ Clean value ∧ newValue s parts name = some value ∧
        line = setting name value := by
  rcases List.mem_append.mp h with hold | hnew
  · obtain ⟨l, hl, rfl⟩ := List.mem_map.mp hold
    rcases rewriteLine_cases (s := s) hparts (hlines l hl) with ⟨hkept, hfree⟩ | hset
    · rw [hkept]
      exact .inl ⟨hl, hfree⟩
    · obtain ⟨name, value, -, hname, hclean, hvalue, hline⟩ := hset
      exact .inr ⟨name, value, hname, hclean, hvalue, hline⟩
  · obtain ⟨r, hr, rfl⟩ := List.mem_map.mp hnew
    have hreq := List.mem_of_mem_filter hr
    exact .inr ⟨r.1, r.2, isName_required r hreq, clean_newValue hparts (newValue_required r hreq),
      newValue_required r hreq, rfl⟩

theorem isLine_newLines (hparts : parts.Clean) {lines : List Bytes}
    (hlines : ∀ l ∈ lines, IsLine l) : ∀ l ∈ newLines s parts lines, IsLine l := by
  intro l hl
  rcases mem_newLines_cases hparts hlines hl with ⟨hold, -⟩ | ⟨n, v, hn, hv, -, rfl⟩
  · exact hlines l hold
  · exact (reads_setting hn hv).1

/-- Every active line that is written carries the value that the setter gives to its name. -/
theorem reads_newLines (hparts : parts.Clean) {lines : List Bytes}
    (hlines : ∀ l ∈ lines, IsLine l) (h : line ∈ newLines s parts lines) {w : Bytes}
    (hreads : reads line = some (name, value)) (hw : newValue s parts name = some w) :
    value = w := by
  rcases mem_newLines_cases hparts hlines h with ⟨-, hfree⟩ | ⟨n, v, hn, hv, hnew, rfl⟩
  · exact absurd (managed_of_newValue hw) (hfree name (nameOf_of_reads hreads))
  · rw [(reads_setting hn hv).2.1] at hreads
    cases hreads
    rw [hnew] at hw
    exact Option.some.inj hw

/-- Every name that may be appended is set in one of the lines. -/
theorem exists_reads_newLines (hparts : parts.Clean) {lines : List Bytes}
    (hlines : ∀ l ∈ lines, IsLine l) {r : Bytes × Bytes} (hr : r ∈ required s parts) :
    ∃ l ∈ newLines s parts lines, strip l ≠ [] ∧ reads l = some r := by
  by_cases hseen : r.1 ∈ lines.filterMap nameOf
  · obtain ⟨l, hl, hname⟩ := List.mem_filterMap.mp hseen
    refine ⟨rewriteLine s parts l, List.mem_append_left _ (List.mem_map_of_mem hl), ?_⟩
    rcases rewriteLine_cases (s := s) hparts (hlines l hl) with ⟨-, hfree⟩ | hset
    · exact absurd (managed_of_newValue (newValue_required r hr)) (hfree r.1 hname)
    · obtain ⟨name, value, hn, hname', hclean, hvalue, hline⟩ := hset
      rw [hname] at hn
      cases hn
      rw [newValue_required r hr] at hvalue
      cases hvalue
      rw [hline]
      exact ⟨(reads_setting hname' hclean).2.2, (reads_setting hname' hclean).2.1⟩
  · have hnew : r ∈ (required s parts).filter fun r ↦ r.1 ∉ lines.filterMap nameOf :=
      List.mem_filter.mpr ⟨hr, by simpa using hseen⟩
    have hset := reads_setting (isName_required r hr)
      (clean_newValue hparts (newValue_required r hr))
    exact ⟨_, List.mem_append_right _ (List.mem_map_of_mem hnew), hset.2.2, hset.2.1⟩

/-- The lines of a file have a terminator at their end only. -/
theorem isLine_linesOf (config : Option Bytes) : ∀ l ∈ linesOf config, IsLine l :=
  fun _ hl ↦ mem_readlines hl

/-- The lines of the file that the setter writes. -/
theorem linesOf_written (hparts : parts.Clean) (config : Option Bytes) :
    linesOf (some (written (newLines s parts (linesOf config)))) =
      ((newLines s parts (linesOf config)).filter fun l ↦ strip l ≠ []).map terminated :=
  readlines_written (isLine_newLines hparts (isLine_linesOf config))

end MotionPie.Board.Raspberrypi.Boardctl
