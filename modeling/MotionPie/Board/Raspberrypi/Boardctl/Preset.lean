import MotionPie.Board.Raspberrypi.Boardctl.RoundTrip

/-!
# The preset in config.txt

A preset is four lines of the file, of which the getter reads one. When the setter writes, all four
carry the preset. When the settings are those that the getter returns it does not write, and the
other three keep what they had.
-/

namespace MotionPie.Board.Raspberrypi.Boardctl

open Base
open Package.Motioneye.Extractl (terminated written)

/-- The part of a preset that a name stands for. -/
def Parts.value (parts : Parts) (name : Bytes) : Option Bytes :=
  if name = str "arm_freq" then some parts.armFreq
  else if name = str "gpu_freq" ∨ name = str "core_freq" then some parts.gpuFreq
  else if name = str "sdram_freq" then some parts.sdramFreq
  else if name = str "over_voltage" then some parts.overVoltage
  else none

/-- Every active line for a part of the preset carries it, as a number. -/
def Applied (parts : Parts) (config : Option Bytes) : Prop :=
  ∀ l ∈ linesOf config, ∀ name value w, reads l = some (name, value) →
    parts.value name = some w → toInt value = toInt w

variable {s old : Settings} {parts : Parts} {config : Option Bytes}

/-- The setter gives its part of the preset to a name that stands for one. -/
theorem newValue_of_value {name w : Bytes} (h : parts.value name = some w) :
    newValue s parts name = some w := by
  have hgpu : (str "gpu_mem").isPrefixOf name = false := by
    unfold Parts.value at h
    split_ifs at h with harm hfreq hsdram hvoltage
    · rw [harm]
      rfl
    · rcases hfreq with rfl | rfl
      · rfl
      · rfl
    · rw [hsdram]
      rfl
    · rw [hvoltage]
      rfl
  unfold Parts.value at h
  rw [newValue, hgpu, if_neg Bool.false_ne_true]
  split_ifs at h ⊢ <;> exact h

/-- The preset is applied in a file that has been written. -/
theorem applied_written (hparts : parts.Clean) (config : Option Bytes) :
    Applied parts (some (written (newLines s parts (linesOf config)))) := by
  intro l hl name value w hreads hw
  rw [linesOf_written hparts] at hl
  obtain ⟨k, hk, rfl⟩ := List.mem_map.mp hl
  rw [reads_terminated] at hreads
  rw [reads_newLines hparts (isLine_linesOf config) (List.mem_of_mem_filter hk) hreads
    (newValue_of_value hw)]

/-- The preset is applied if and only if it was applied already in the case that the settings are
those that the getter returns. -/
theorem applied_iff (hget : getBoardSettings config = .ok old) (hs : s.IsPreset)
    (hsplit : splitOverclock s.overclock = some parts) :
    (∃ config', setBoardSettings s.toDict config = .ok config' ∧ Applied parts config') ↔
      (s = old → Applied parts config) := by
  have hclean : parts.Clean := by
    obtain ⟨_, _, hparts, hclean, -⟩ := hs.exists_parts
    rw [hsplit] at hparts
    cases hparts
    exact hclean
  rw [setBoardSettings_eq hget hsplit]
  by_cases hsame : s = old
  · rw [if_pos hsame]
    constructor
    · rintro ⟨config', hconfig, happlied⟩ -
      cases hconfig
      exact happlied
    · intro h
      exact ⟨config, rfl, h hsame⟩
  · rw [if_neg hsame]
    constructor
    · intro _ h
      exact absurd h hsame
    · intro _
      exact ⟨_, rfl, applied_written hclean config⟩

/-- Overclocking a board with an empty file. -/
theorem applied_iff_empty :
    (∃ config', setBoardSettings (⟨128, str "1000|500|600|6", true⟩ : Settings).toDict (some []) =
        .ok config' ∧ Applied ⟨str "1000", str "500", str "600", str "6"⟩ config') ↔
      ((⟨128, str "1000|500|600|6", true⟩ : Settings) = ⟨128, str "700|250|400|0", true⟩ →
        Applied ⟨str "1000", str "500", str "600", str "6"⟩ (some [])) :=
  applied_iff rfl (show str "1000|500|600|6" ∈ presets.map Prod.snd by decide) (by decide +kernel)

/-- A preset whose frequency the file already sets, beside the voltage of another one. -/
theorem mixed_preset_not_applied :
    getBoardSettings (some (str "arm_freq=900\nover_voltage=6\n")) =
        .ok ⟨128, str "900|250|450|0", true⟩ ∧
      (⟨128, str "900|250|450|0", true⟩ : Settings).IsPreset ∧
      splitOverclock (str "900|250|450|0") = some ⟨str "900", str "250", str "450", str "0"⟩ ∧
      ¬ ∃ config', setBoardSettings (⟨128, str "900|250|450|0", true⟩ : Settings).toDict
          (some (str "arm_freq=900\nover_voltage=6\n")) = .ok config' ∧
        Applied ⟨str "900", str "250", str "450", str "0"⟩ config' := by
  have hget : getBoardSettings (some (str "arm_freq=900\nover_voltage=6\n")) =
      .ok ⟨128, str "900|250|450|0", true⟩ := by decide +kernel
  have hsplit : splitOverclock (str "900|250|450|0") =
      some ⟨str "900", str "250", str "450", str "0"⟩ := by decide +kernel
  refine ⟨hget, show str "900|250|450|0" ∈ presets.map Prod.snd by decide, hsplit, ?_⟩
  rintro ⟨config', hset, happlied⟩
  rw [setBoardSettings_eq hget hsplit, if_pos rfl] at hset
  cases hset
  have hvoltage := happlied (str "over_voltage=6\n") (by decide +kernel) (str "over_voltage")
    (str "6") (str "0") (by decide +kernel) (by decide +kernel)
  revert hvoltage
  decide +kernel

end MotionPie.Board.Raspberrypi.Boardctl
