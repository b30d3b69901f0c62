import MotionPie.Base.LastWins
import MotionPie.Base.Text

/-!
# motioneye.conf

`package/motioneye/extractl.py`, from `_get_motioneye_settings` to `_set_motioneye_settings`.
The getter splits a line at its first blank, the setter at its first two, so the setter passes
over a value with a blank in it. The setter takes each setting out of its dictionary with the
first line that it rewrites; a second line of the same key raises a `KeyError`.
-/

namespace MotionPie.Package.Motioneye.Extractl

open Base

/-- The result of `_get_motioneye_settings`. -/
structure Settings where
  port : Int
  motionBinary : Bytes
  motionKeepAlive : Bool
  debug : Bool
  prereleases : Bool
  deriving DecidableEq

/-- The dictionary that `_set_motioneye_settings` works on: a field is `none` when the key is
missing. -/
structure Dict where
  port : Option Int
  motionBinary : Option Bytes
  motionKeepAlive : Option Bool
  debug : Option Bool
  prereleases : Option Bool
  deriving DecidableEq

/-- The files behind the settings: `/data/etc/motioneye.conf` and whether
`/data/etc/prereleases` exists. -/
structure Files where
  motioneyeConf : Option Bytes
  prereleases : Bool
  deriving DecidableEq

/-- The exceptions. -/
inductive Error
  | keyError (key : String)
  | valueError
  deriving DecidableEq

/-- `name.replace('_', '-')`. -/
def dashed (name : Bytes) : Bytes := name.map fun b ↦ if b = 95 then 45 else b

/-- The lines of the file, none when it does not exist. -/
def Files.lines (fs : Files) : List Bytes := readlines (fs.motioneyeConf.getD [])

/-! ### _get_motioneye_settings -/

/-- The loop body, `package/motioneye/extractl.py:109-131`. -/
def readLine (s : Settings) (line : Bytes) : Except Error Settings :=
  let line := strip line
  if line = [] then .ok s
  else match split 32 1 line with
    | [name, value] =>
      let name := dashed name
      if name = str "port" then
        match toInt value with
        | some n => .ok { s with port := n }
        | none => .error .valueError
      else if name = str "motion-binary" then .ok { s with motionBinary := value }
      else if name = str "log-level" then .ok { s with debug := value = str "debug" }
      else if name = str "mjpg-client-idle-timeout" then
        .ok { s with motionKeepAlive := value = str "0" }
      else .ok s
    | _ => .ok s

/-- `_get_motioneye_settings`, `package/motioneye/extractl.py:98-145`. -/
def getMotioneyeSettings (fs : Files) : Except Error Settings :=
  fs.lines.foldlM readLine
    ⟨80, str "/usr/bin/motion", false, false, fs.prereleases⟩

/-! ### _set_motioneye_settings -/

/-- The keys that the setter writes. -/
inductive Key
  | port
  | motionBinary
  | logLevel
  | mjpgClientIdleTimeout
  deriving DecidableEq

/-- The key as it is written. -/
def Key.name : Key → Bytes
  | .port => str "port"
  | .motionBinary => str "motion-binary"
  | .logLevel => str "log-level"
  | .mjpgClientIdleTimeout => str "mjpg-client-idle-timeout"

/-- The entry of the dictionary behind a key. -/
def Key.entry : Key → String
  | .port => "port"
  | .motionBinary => "motionBinary"
  | .logLevel => "debug"
  | .mjpgClientIdleTimeout => "motionKeepAlive"

/-- All keys, in the order in which they are appended. -/
def Key.all : List Key := [.port, .motionBinary, .logLevel, .mjpgClientIdleTimeout]

/-- The key that a line is about. -/
def Key.ofName (name : Bytes) : Option Key := Key.all.find? fun k ↦ k.name = name

/-- The line that sets a key. -/
def Key.line (k : Key) (value : Bytes) : Bytes := k.name ++ 32 :: value

namespace Dict

variable (s : Dict)

/-- The calls of `s.setdefault`, `package/motioneye/extractl.py:150-154`. The last one is for
`motion_keep_alive`, which nothing reads, so `motionKeepAlive` gets no default. -/
def setdefaults : Dict where
  port := s.port.getD 80
  motionBinary := s.motionBinary.getD (str "/usr/bin/motion")
  motionKeepAlive := s.motionKeepAlive
  debug := s.debug.getD false
  prereleases := s.prereleases.getD false

/-- The text that a key is set to. -/
def text : Key → Option Bytes
  | .port => s.port.map showInt
  | .motionBinary => s.motionBinary
  | .logLevel => s.debug.map fun b ↦ if b then str "debug" else str "info"
  | .mjpgClientIdleTimeout => s.motionKeepAlive.map fun b ↦ if b then str "0" else str "10"

/-- `s.pop(key)`, after its value has been taken. -/
def pop : Key → Dict
  | .port => { s with port := none }
  | .motionBinary => { s with motionBinary := none }
  | .logLevel => { s with debug := none }
  | .mjpgClientIdleTimeout => { s with motionKeepAlive := none }

end Dict

/-- The loop body, `package/motioneye/extractl.py:164-187`. -/
def rewriteLine (s : Dict) (line : Bytes) : Except Error (Dict × Bytes) :=
  if strip line = [] then .ok (s, line)
  else match split 32 2 (strip line) with
    | [name, _] =>
      match Key.ofName (dashed name) with
      | some k =>
        match s.text k with
        | some value => .ok (s.pop k, k.line value)
        | none => .error (.keyError k.entry)
      | none => .ok (s, line)
    | _ => .ok (s, line)

/-- The loop over the lines. -/
def rewriteLines : Dict → List Bytes → Except Error (Dict × List Bytes)
  | s, [] => .ok (s, [])
  | s, line :: lines => do
    let (s, line) ← rewriteLine s line
    let (s, lines) ← rewriteLines s lines
    return (s, line :: lines)

/-- The lines for what is left in the dictionary, `package/motioneye/extractl.py:189-199`. -/
def Dict.appended (s : Dict) : List Bytes :=
  Key.all.filterMap fun k ↦ (s.text k).map k.line

/-- A line as it goes into the file. -/
def terminated (line : Bytes) : Bytes :=
  if line.getLast? = some newline then line else line ++ [newline]

/-- The loop that writes the file, `package/motioneye/extractl.py:213-218`. -/
def written (lines : List Bytes) : Bytes :=
  (lines.filter fun line ↦ strip line ≠ []).flatMap terminated

/-- `_set_motioneye_settings`, `package/motioneye/extractl.py:148-218`. The message for the log
is put together before anything else and needs all five settings. -/
def setMotioneyeSettings (s : Dict) (fs : Files) : Except Error Files := do
  let s := s.setdefaults
  if s.motionKeepAlive = none then throw (.keyError "motionKeepAlive")
  let (s, lines) ← rewriteLines s fs.lines
  return ⟨some (written (lines ++ s.appended)), s.prereleases.getD false⟩

end MotionPie.Package.Motioneye.Extractl
