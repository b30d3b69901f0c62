import MotionPie.Package.Motioneye.Entries
import MotionPie.Package.Motioneye.Watchctl

/-!
# config.txt

`_get_board_settings` and `_set_board_settings` of
`board/raspberrypi/motioneye-modules/boardctl.py`. The getter passes over lines that start with a
hash and finds the overclock preset by `arm_freq` alone. The setter rewrites a line with or without a
hash, but writes nothing when the settings are those that the getter returns.
-/

namespace MotionPie.Board.Raspberrypi.Boardctl

open Base
open Package.Motioneye.Watchctl (stripByte)
open Package.Motioneye.Extractl (terminated written)

/-- The result of `_get_board_settings`. -/
structure Settings where
  gpuMem : Int
  overclock : Bytes
  cameraLed : Bool
  deriving DecidableEq

/-- The dictionary that `_set_board_settings` works on: a field is `none` when the key is missing. -/
structure Dict where
  gpuMem : Option Int
  overclock : Option Bytes
  cameraLed : Option Bool

/-- The exceptions. -/
inductive Error
  | valueError
  deriving DecidableEq

/-- `OVERCLOCK`. -/
def presets : List (Int × Bytes) :=
  [(700, str "700|250|400|0"), (800, str "800|250|400|0"), (900, str "900|250|450|0"),
    (950, str "950|250|450|0"), (1000, str "1000|500|600|6"), (1001, str "1001|500|500|2")]

/-- The lines of the file, none when it does not exist. -/
def linesOf (config : Option Bytes) : List Bytes := readlines (config.getD [])

/-! ### _get_board_settings -/

/-- The variables of the getter. -/
structure Values where
  gpuMem : Int
  armFreq : Int
  cameraLed : Bool

/-- The line is not blank and not a comment. -/
def isActive (line : Bytes) : Bool := strip line ≠ [] && (strip line).head? ≠ some 35

/-- The name and the value in a line. -/
def assignment (line : Bytes) : Option (Bytes × Bytes) :=
  match split 61 1 line with
  | [name, value] => some (strip name, strip value)
  | _ => none

/-- The effect of a name and a value, `board/raspberrypi/motioneye-modules/boardctl.py:59-66`. -/
def readValue (vals : Values) (name value : Bytes) : Except Error Values :=
  if (str "gpu_mem").isPrefixOf name then
    match toInt value with
    | some n => .ok { vals with gpuMem := n }
    | none => .error .valueError
  else if name = str "arm_freq" then
    match toInt value with
    | some n => .ok { vals with armFreq := n }
    | none => .error .valueError
  else if name = str "disable_camera_led" then .ok { vals with cameraLed := value = str "0" }
  else .ok vals

/-- The loop body, `board/raspberrypi/motioneye-modules/boardctl.py:46-66`. -/
def readLine (vals : Values) (line : Bytes) : Except Error Values :=
  if isActive line then
    match assignment (strip line) with
    | some (name, value) => readValue vals name value
    | none => .ok vals
  else .ok vals

/-- `OVERCLOCK.get(arm_freq, '700|250|400|0')`. -/
def overclockOf (armFreq : Int) : Bytes := (presets.lookup armFreq).getD (str "700|250|400|0")

/-- `_get_board_settings`. -/
def getBoardSettings (config : Option Bytes) : Except Error Settings := do
  let vals ← (linesOf config).foldlM readLine ⟨128, 700, true⟩
  return ⟨vals.gpuMem, overclockOf vals.armFreq, vals.cameraLed⟩

/-! ### _set_board_settings -/

/-- The calls of `s.setdefault`. -/
def Dict.setdefaults (s : Dict) : Settings where
  gpuMem := s.gpuMem.getD 128
  overclock := s.overclock.getD (str "700|250|400|0")
  cameraLed := s.cameraLed.getD true

/-- The parts of a preset. -/
structure Parts where
  armFreq : Bytes
  gpuFreq : Bytes
  sdramFreq : Bytes
  overVoltage : Bytes
  deriving DecidableEq

/-- `s['overclock'].split('|')`, which must have four parts. -/
def splitOverclock (overclock : Bytes) : Option Parts :=
  match split 124 overclock.length overclock with
  | [armFreq, gpuFreq, sdramFreq, overVoltage] => some ⟨armFreq, gpuFreq, sdramFreq, overVoltage⟩
  | _ => none

/-- The name that the setter finds in a line, commented or not. -/
def nameOf (line : Bytes) : Option Bytes :=
  if strip line = [] then none else (assignment (stripByte 35 (strip line))).map Prod.fst

/-- `['1', '0'][s['cameraLed']]`. -/
def ledText (cameraLed : Bool) : Bytes := if cameraLed then str "0" else str "1"

section Write

variable (s : Settings) (parts : Parts)

/-- What the setter gives to a name, `board/raspberrypi/motioneye-modules/boardctl.py:118-134`. -/
def newValue (name : Bytes) : Option Bytes :=
  if (str "gpu_mem").isPrefixOf name then some (showInt s.gpuMem)
  else if name = str "arm_freq" then some parts.armFreq
  else if name = str "gpu_freq" ∨ name = str "core_freq" then some parts.gpuFreq
  else if name = str "sdram_freq" then some parts.sdramFreq
  else if name = str "over_voltage" then some parts.overVoltage
  else if name = str "disable_camera_led" then some (ledText s.cameraLed)
  else none

/-- `'%s=%s' % (name, value)`. -/
def setting (name value : Bytes) : Bytes := name ++ 61 :: value

/-- The loop body, `board/raspberrypi/motioneye-modules/boardctl.py:102-134`. -/
def rewriteLine (line : Bytes) : Bytes :=
  match nameOf line with
  | some name => ((newValue s parts name).map (setting name)).getD line
  | none => line

/-- The names that are appended when they have not been seen, with their values,
`board/raspberrypi/motioneye-modules/boardctl.py:136-158`. -/
def required : List (Bytes × Bytes) :=
  [(str "gpu_mem", showInt s.gpuMem), (str "gpu_mem_256", showInt s.gpuMem),
    (str "gpu_mem_512", showInt s.gpuMem), (str "arm_freq", parts.armFreq),
    (str "gpu_freq", parts.gpuFreq), (str "sdram_freq", parts.sdramFreq),
    (str "over_voltage", parts.overVoltage), (str "disable_camera_led", ledText s.cameraLed)]

/-- All lines that are written. -/
def newLines (lines : List Bytes) : List Bytes :=
  let seen := lines.filterMap nameOf
  lines.map (rewriteLine s parts) ++
    ((required s parts).filter fun r ↦ r.1 ∉ seen).map fun r ↦ setting r.1 r.2

end Write

/-- `_set_board_settings`, on a file system that can be written. -/
def setBoardSettings (s : Dict) (config : Option Bytes) : Except Error (Option Bytes) := do
  let s := s.setdefaults
  let oldSettings ← getBoardSettings config
  if s = oldSettings then return config
  match splitOverclock s.overclock with
  | some parts => return some (written (newLines s parts (linesOf config)))
  | none => throw .valueError

end MotionPie.Board.Raspberrypi.Boardctl
