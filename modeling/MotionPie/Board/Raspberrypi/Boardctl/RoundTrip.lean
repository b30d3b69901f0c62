import MotionPie.Board.Raspberrypi.Boardctl.Lines
import MotionPie.Base.Loop

/-!
# Board settings are read back

After the settings have been written the getter returns them, and the lines of other settings are
those of before. This holds for any order, repetition and commenting of the lines.
-/

namespace MotionPie.Board.Raspberrypi.Boardctl

open Base
open Package.Motioneye.Extractl (terminated written)

/-- The settings as a dictionary with all keys. -/
def Settings.toDict (s : Settings) : Dict := ⟨some s.gpuMem, some s.overclock, some s.cameraLed⟩

/-- The overclocking is one of `OVERCLOCK`. -/
def Settings.IsPreset (s : Settings) : Prop := s.overclock ∈ presets.map Prod.snd

/-- A line without its terminator. -/
def chomp (line : Bytes) : Bytes := if line.getLast? = some newline then line.dropLast else line

/-- The line is not blank and, if it has a key, the key is not managed. -/
def isKept (line : Bytes) : Bool := strip line ≠ [] && ∀ name ∈ nameOf line, ¬ Managed name

/-- The lines that the setter has to keep. -/
def keptLines (config : Option Bytes) : List Bytes := ((linesOf config).filter isKept).map chomp

variable {s : Settings} {parts : Parts} {line : Bytes} {config : Option Bytes}

@[simp] theorem Settings.setdefaults_toDict (s : Settings) : s.toDict.setdefaults = s := rfl

/-- A preset has four parts, and the getter finds it by the first one. -/
theorem Settings.IsPreset.exists_parts (h : s.IsPreset) :
    ∃ parts armFreq, splitOverclock s.overclock = some parts ∧ parts.Clean ∧
      toInt parts.armFreq = some armFreq ∧ overclockOf armFreq = s.overclock := by
  have hall : ∀ overclock ∈ presets.map Prod.snd, ∃ parts armFreq,
      splitOverclock overclock = some parts ∧ parts.Clean ∧
      toInt parts.armFreq = some armFreq ∧ overclockOf armFreq = overclock := by
    simp only [presets, List.map_cons, List.map_nil, List.forall_mem_cons]
    refine ⟨?_, ?_, ?_, ?_, ?_, ?_, fun _ h ↦ by cases h⟩
    all_goals exact ⟨_, _, rfl,
      ⟨⟨by decide, by decide⟩, ⟨by decide, by decide⟩, ⟨by decide, by decide⟩,
        ⟨by decide, by decide⟩⟩, rfl, rfl⟩
  exact hall s.overclock h

/-! ### Reading -/

/-- One of the lines sets the name. -/
def Sets (name : Bytes) (lines : List Bytes) : Prop := ∃ l ∈ lines, ∃ v, reads l = some (name, v)

theorem sets_concat {name : Bytes} {lines : List Bytes} :
    Sets name (lines ++ [line]) ↔ Sets name lines ∨ ∃ v, reads line = some (name, v) := by
  simp only [Sets, List.mem_append, List.mem_singleton, or_and_right, exists_or, exists_eq_left]

theorem ledText_eq : ∀ cameraLed, decide (ledText cameraLed = str "0") = cameraLed := by
  decide

/-- The invariant of the getter's loop: a setting that has been set has its new value. -/
structure Settled (s : Settings) (armFreq : Int) (pre : List Bytes) (vals : Values) : Prop where
  gpuMem : Sets (str "gpu_mem") pre → vals.gpuMem = s.gpuMem
  armFreq : Sets (str "arm_freq") pre → vals.armFreq = armFreq
  cameraLed : Sets (str "disable_camera_led") pre → vals.cameraLed = s.cameraLed

/-- What a name with its new value sets. -/
theorem readValue_new {armFreq : Int} (harm : toInt parts.armFreq = some armFreq)
    {name value : Bytes} (hvalue : ∀ w, newValue s parts name = some w → value = w)
    (vals : Values) :
    readValue vals name value = .ok
      ⟨if (str "gpu_mem").isPrefixOf name then s.gpuMem else vals.gpuMem,
        if name = str "arm_freq" then armFreq else vals.armFreq,
        if name = str "disable_camera_led" then s.cameraLed else vals.cameraLed⟩ := by
  by_cases hgpu : (str "gpu_mem").isPrefixOf name = true
  · have harmName : name ≠ str "arm_freq" := by
      rintro rfl
      exact absurd hgpu (by decide)
    have hledName : name ≠ str "disable_camera_led" := by
      rintro rfl
      exact absurd hgpu (by decide)
    have hnew : newValue s parts name = some (showInt s.gpuMem) := by rw [newValue, if_pos hgpu]
    rw [readValue, if_pos hgpu, hvalue _ hnew, toInt_showInt, if_pos hgpu, if_neg harmName,
      if_neg hledName]
  rw [readValue, if_neg hgpu, if_neg hgpu]
  by_cases harmName : name = str "arm_freq"
  · subst harmName
    rw [if_pos rfl, hvalue parts.armFreq rfl, harm, if_pos rfl, if_neg (by decide)]
  rw [if_neg harmName, if_neg harmName]
  by_cases hledName : name = str "disable_camera_led"
  · subst hledName
    rw [if_pos rfl, if_pos rfl, hvalue (ledText s.cameraLed) rfl, ledText_eq]
  · rw [if_neg hledName, if_neg hledName]

/-- A line that carries a new value settles its setting and leaves the others alone. -/
theorem Settled.step {armFreq : Int} (harm : toInt parts.armFreq = some armFreq)
    {pre : List Bytes} {vals : Values} (h : Settled s armFreq pre vals)
    (hline : ∀ name value w, reads line = some (name, value) →
      newValue s parts name = some w → value = w) :
    ∃ out, readLine vals line = .ok out ∧ Settled s armFreq (pre ++ [line]) out := by
  cases hreads : reads line with
  | none =>
    have hkeep : ∀ name, Sets name (pre ++ [line]) → Sets name pre := by
      intro name hset
      rcases sets_concat.mp hset with hset | ⟨v, hv⟩
      · exact hset
      · rw [hreads] at hv
        cases hv
    exact ⟨vals, readLine_of_none hreads vals, fun hset ↦ h.gpuMem (hkeep _ hset),
      fun hset ↦ h.armFreq (hkeep _ hset), fun hset ↦ h.cameraLed (hkeep _ hset)⟩
  | some r =>
    obtain ⟨name, value⟩ := r
    have hkeep : ∀ n, Sets n (pre ++ [line]) → name = n ∨ Sets n pre := by
      intro n hset
      rcases sets_concat.mp hset with hset | ⟨v, hv⟩
      · exact .inr hset
      · rw [hreads] at hv
        cases hv
        exact .inl rfl
    refine ⟨_, (readLine_of_some hreads vals).trans
      (readValue_new harm (fun w hw ↦ hline name value w hreads hw) vals), ?_, ?_, ?_⟩
    · intro hset
      rcases hkeep _ hset with rfl | hset
      · rfl
      · simp only [h.gpuMem hset, ite_self]
    · intro hset
      rcases hkeep _ hset with rfl | hset
      · rfl
      · simp only [h.armFreq hset, ite_self]
    · intro hset
      rcases hkeep _ hset with rfl | hset
      · rfl
      · simp only [h.cameraLed hset, ite_self]

/-- The loop of the getter succeeds on lines that carry the new values. -/
theorem foldlM_readLine {armFreq : Int} (harm : toInt parts.armFreq = some armFreq)
    {lines : List Bytes}
    (hlines : ∀ l ∈ lines, ∀ name value w, reads l = some (name, value) →
      newValue s parts name = some w → value = w) (vals : Values) :
    ∃ out, lines.foldlM readLine vals = .ok out ∧ Settled s armFreq lines out := by
  apply foldlM_total (Settled s armFreq)
  · have hnone : ∀ name, ¬ Sets name [] := by
      rintro name ⟨l, hl, -⟩
      cases hl
    exact ⟨fun h ↦ absurd h (hnone _), fun h ↦ absurd h (hnone _), fun h ↦ absurd h (hnone _)⟩
  · intro pre l post vals hsplit hsettled
    exact hsettled.step harm (hlines l (by simp [hsplit]))

/-- The getter returns what the setter has written. -/
theorem getBoardSettings_written {armFreq : Int} (hparts : parts.Clean)
    (harm : toInt parts.armFreq = some armFreq) (hpreset : overclockOf armFreq = s.overclock)
    (config : Option Bytes) :
    getBoardSettings (some (written (newLines s parts (linesOf config)))) = .ok s := by
  have hold := isLine_linesOf config
  have hlines := linesOf_written (s := s) hparts config
  have hset : ∀ r ∈ required s parts,
      Sets r.1 (linesOf (some (written (newLines s parts (linesOf config))))) := by
    intro r hr
    obtain ⟨l, hl, hne, hreads⟩ := exists_reads_newLines hparts hold hr
    rw [hlines]
    refine ⟨terminated l, List.mem_map_of_mem (List.mem_filter.mpr ⟨hl, by simpa using hne⟩),
      r.2, ?_⟩
    rw [reads_terminated, hreads]
  have hnew : ∀ l ∈ linesOf (some (written (newLines s parts (linesOf config)))),
      ∀ name value w, reads l = some (name, value) → newValue s parts name = some w →
        value = w := by
    intro l hl name value w hreads hw
    rw [hlines] at hl
    obtain ⟨k, hk, rfl⟩ := List.mem_map.mp hl
    rw [reads_terminated] at hreads
    exact reads_newLines hparts hold (List.mem_of_mem_filter hk) hreads hw
  obtain ⟨out, hrun, ⟨hgpu, hfreq, hled⟩⟩ := foldlM_readLine harm hnew ⟨128, 700, true⟩
  have hgpuMem : out.gpuMem = s.gpuMem :=
    hgpu (hset (str "gpu_mem", showInt s.gpuMem) (by simp [required]))
  have harmFreq : out.armFreq = armFreq :=
    hfreq (hset (str "arm_freq", parts.armFreq) (by simp [required]))
  have hcameraLed : out.cameraLed = s.cameraLed :=
    hled (hset (str "disable_camera_led", ledText s.cameraLed) (by simp [required]))
  rw [getBoardSettings, hrun]
  simp only [bind, Except.bind, pure, Except.pure, hgpuMem, harmFreq, hpreset, hcameraLed]

/-! ### Lines that are kept -/

theorem isKept_terminated (line : Bytes) : isKept (terminated line) = isKept line := by
  unfold isKept
  rw [strip_terminated, nameOf_terminated]

theorem chomp_terminated (line : Bytes) : chomp (terminated line) = chomp line := by
  unfold terminated
  split
  · rfl
  · next hlast => simp [chomp, hlast]

/-- The setter keeps every line that is not blank and has no managed key. -/
theorem keptLines_written (hparts : parts.Clean) (config : Option Bytes) :
    keptLines (some (written (newLines s parts (linesOf config)))) = keptLines config := by
  have hrewrite : ∀ lines : List Bytes, (∀ l ∈ lines, Package.Motioneye.Extractl.IsLine l) →
      (lines.map (rewriteLine s parts)).filter isKept = lines.filter isKept := by
    intro lines hlines
    induction lines with
    | nil => rfl
    | cons l lines ih =>
      rw [List.forall_mem_cons] at hlines
      rw [List.map_cons, List.filter_cons, List.filter_cons, ih hlines.2]
      rcases rewriteLine_cases (s := s) hparts hlines.1 with ⟨hkept, -⟩ | hset
      · rw [hkept]
      · obtain ⟨name, value, hname, hn, hv, hnew, hline⟩ := hset
        have hmanaged := managed_of_newValue hnew
        have hold : isKept l = false := by simp [isKept, hname, hmanaged]
        have hsetting : isKept (setting name value) = false := by
          simp [isKept, nameOf_setting hn hv, hmanaged]
        rw [hline, hold, hsetting, if_neg Bool.false_ne_true, if_neg Bool.false_ne_true]
  have happended : ∀ rs : List (Bytes × Bytes), (∀ r ∈ rs, r ∈ required s parts) →
      (rs.map fun r ↦ setting r.1 r.2).filter isKept = [] := by
    intro rs hrs
    rw [List.filter_eq_nil_iff]
    intro l hl
    obtain ⟨r, hr, rfl⟩ := List.mem_map.mp hl
    have hnew := newValue_required r (hrs r hr)
    have hname := nameOf_setting (isName_required r (hrs r hr)) (clean_newValue hparts hnew)
    simp [isKept, hname, managed_of_newValue hnew]
  have hblank : ∀ l, isKept l = true → decide (strip l ≠ []) = true := by
    intro l hl
    exact (Bool.and_eq_true_iff.mp hl).1
  have hfilter : (fun l ↦ isKept l && decide (strip l ≠ [])) = isKept := by
    ext l
    cases hl : isKept l with
    | false => rfl
    | true => rw [hblank l hl]; rfl
  unfold keptLines
  rw [linesOf_written hparts, List.filter_map, List.map_map]
  have hcomp : isKept ∘ terminated = isKept := funext isKept_terminated
  have hchomp : chomp ∘ terminated = chomp := funext chomp_terminated
  rw [hcomp, hchomp, List.filter_filter, hfilter, newLines, List.filter_append,
    hrewrite _ (isLine_linesOf config), happended _ fun r hr ↦ List.mem_of_mem_filter hr,
    List.append_nil]

/-- What the setter does for settings with a preset, when the getter succeeds. -/
theorem setBoardSettings_eq {old : Settings} (hget : getBoardSettings config = .ok old)
    (hparts : splitOverclock s.overclock = some parts) :
    setBoardSettings s.toDict config = .ok
      (if s = old then config else some (written (newLines s parts (linesOf config)))) := by
  unfold setBoardSettings
  rw [hget, Settings.setdefaults_toDict]
  simp only [bind, Except.bind, hparts]
  split <;> rfl

/-- Whatever is in the file, the getter returns the settings that have been set, and the lines that
are not managed are kept in their order. -/
theorem get_set_boardSettings {old : Settings} (hget : getBoardSettings config = .ok old)
    (hs : s.IsPreset) :
    ∃ config', setBoardSettings s.toDict config = .ok config' ∧
      getBoardSettings config' = .ok s ∧ keptLines config' = keptLines config := by
  obtain ⟨parts, armFreq, hsplit, hclean, harm, hpreset⟩ := hs.exists_parts
  refine ⟨_, setBoardSettings_eq hget hsplit, ?_⟩
  by_cases hsame : s = old
  · rw [if_pos hsame, hget, hsame]
    exact ⟨rfl, rfl⟩
  · rw [if_neg hsame]
    exact ⟨getBoardSettings_written hclean harm hpreset config, keptLines_written hclean config⟩

/-- A file without a final terminator, with a commented setting and two lines of another key. -/
theorem get_set_boardSettings_edited :
    ∃ config', setBoardSettings (⟨256, str "1000|500|600|6", false⟩ : Settings).toDict
        (some (str "hdmi_drive=2\n# gpu_mem = 64\narm_freq=900\n\nhdmi_drive=1")) = .ok config' ∧
      getBoardSettings config' = .ok ⟨256, str "1000|500|600|6", false⟩ ∧
      keptLines config' =
        keptLines (some (str "hdmi_drive=2\n# gpu_mem = 64\narm_freq=900\n\nhdmi_drive=1")) :=
  get_set_boardSettings (s := ⟨256, str "1000|500|600|6", false⟩)
    (show getBoardSettings _ = .ok ⟨128, str "900|250|450|0", true⟩ by decide +kernel)
    (show str "1000|500|600|6" ∈ presets.map Prod.snd by decide)

end MotionPie.Board.Raspberrypi.Boardctl
