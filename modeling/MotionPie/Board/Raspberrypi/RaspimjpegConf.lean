import Mathlib.Data.List.Sort
import MotionPie.Base.Dict
import MotionPie.Package.Motioneye.Entries

/-!
# raspimjpeg.conf

`_get_raspimjpeg_settings` and `_set_raspimjpeg_settings` of
`board/raspberrypi/motioneye-modules/streameyectl.py`. The getter reads the options over its
defaults, turns contrast, saturation and sharpness into percents, joins width and height and gives
the keys a prefix; the setter goes the other way. The order of a dictionary's items is a parameter.
-/

namespace MotionPie.Board.Raspberrypi.Raspimjpeg

open Base
open Package.Motioneye.Extractl (entry)

/-- A value of the dictionary. -/
inductive Val
  | int (n : Int)
  | bool (b : Bool)
  | text (s : Bytes)
  deriving DecidableEq

/-- The dictionary of the options or of the settings. -/
abbrev Settings := Dict Bytes Val

/-- A value in a sum. A boolean is a number, a text raises. -/
def Val.number : Val → Option Int
  | .int n => some n
  | .bool b => some (if b then 1 else 0)
  | .text _ => none

/-- `'%s' % value`. -/
def Val.format : Val → Bytes
  | .int n => showInt n
  | .bool b => if b then str "True" else str "False"
  | .text s => s

/-- `s[name] = f(s[name])`, for a function on numbers. -/
def rescale (f : Int → Int) (name : Bytes) (s : Settings) : Option Settings :=
  ((s.lookup name).bind Val.number).map fun n ↦ s.insert name (.int (f n))

/-- `b.upper()`, for a byte. -/
def upper (b : UInt8) : UInt8 := if 97 ≤ b ∧ b ≤ 122 then b - 32 else b

/-- `b.lower()`, for a byte. -/
def lower (b : UInt8) : UInt8 := if 65 ≤ b ∧ b ≤ 90 then b + 32 else b

/-! ### _get_raspimjpeg_settings -/

/-- The items of the dictionary that the getter starts with, `streameyectl.py:286-305`. -/
def defaultItems : List (Bytes × Val) :=
  [(str "brightness", .int 50), (str "contrast", .int 0), (str "saturation", .int 0),
    (str "sharpness", .int 0), (str "iso", .int 400), (str "ev", .int 0), (str "shutter", .int 0),
    (str "exposure", .text (str "auto")), (str "awb", .text (str "auto")),
    (str "metering", .text (str "average")), (str "drc", .text (str "off")),
    (str "vstab", .bool false), (str "imxfx", .text (str "none")), (str "width", .int 640),
    (str "height", .int 480), (str "rotation", .int 0), (str "vflip", .bool false),
    (str "hflip", .bool false), (str "framerate", .int 15), (str "quality", .int 25)]

/-- The dictionary that the getter starts with. -/
def defaults : Settings := insertAll ∅ defaultItems

/-- The value of an option, `streameyectl.py:325-335`. -/
def readVal (value : Bytes) : Val :=
  match toInt value with
  | some n => .int n
  | none =>
    if value = str "false" then .bool false
    else if value = str "true" then .bool true
    else .text value

/-- The loop body, `streameyectl.py:313-337`. -/
def readLine (s : Settings) (line : Bytes) : Settings :=
  match entry line with
  | some (name, value) => s.insert name (readVal value)
  | none => s

/-- The options of the file over the defaults, `streameyectl.py:285-337`. -/
def readConf (conf : Option Bytes) : Settings := (readlines (conf.getD [])).foldl readLine defaults

/-- `(n + 100) / 2`. -/
def percent (n : Int) : Int := (n + 100) / 2

/-- `'se' + n[0].upper() + n[1:]`. -/
def settingName : Bytes → Option Bytes
  | [] => none
  | b :: name => some (str "se" ++ upper b :: name)

/-- From the options to the settings, `streameyectl.py:339-345`. -/
def toSettings (o : Order Bytes Val) (s : Settings) : Option Settings := do
  let s ← rescale percent (str "contrast") s
  let s ← rescale percent (str "saturation") s
  let s ← rescale percent (str "sharpness") s
  let width ← s.lookup (str "width")
  let height ← s.lookup (str "height")
  let s := (s.erase (str "width")).erase (str "height")
  let s := s.insert (str "resolution") (.text (width.format ++ 120 :: height.format))
  renameKeys o settingName s

/-- `_get_raspimjpeg_settings`. -/
def getRaspimjpegSettings (o : Order Bytes Val) (conf : Option Bytes) : Option Settings :=
  toSettings o (readConf conf)

/-! ### _set_raspimjpeg_settings -/

/-- `n[2].lower() + n[3:]`. -/
def optionName : Bytes → Option Bytes
  | _ :: _ :: b :: name => some (lower b :: name)
  | _ => none

/-- `value.split('x')`, which raises for another value than a text. -/
def Val.splitX : Val → Option (List Bytes)
  | .text s => some (split 120 s.length s)
  | _ => none

/-- `n * 2 - 100`. -/
def unpercent (n : Int) : Int := n * 2 - 100

/-- From the settings to the options, `streameyectl.py:351-358`. -/
def toOptions (o : Order Bytes Val) (s : Settings) : Option Settings := do
  let s ← renameKeys o optionName s
  let resolution ← s.lookup (str "resolution")
  let parts ← resolution.splitX
  let width ← parts[0]?.bind toInt
  let s := s.insert (str "width") (.int width)
  let height ← parts[1]?.bind toInt
  let s := (s.erase (str "resolution")).insert (str "height") (.int height)
  let s ← rescale unpercent (str "contrast") s
  let s ← rescale unpercent (str "saturation") s
  rescale unpercent (str "sharpness") s

/-- The value of an option as it is written, `streameyectl.py:364-367`. -/
def optionText : Val → Bytes
  | .bool b => if b then str "true" else str "false"
  | v => v.format

/-- `'%s %s' % (name, value)`. -/
def optionLine (i : Bytes × Val) : Bytes := i.1 ++ 32 :: optionText i.2

/-- `sorted(s.items(), key=lambda i: i[0])`. -/
def sortedItems (o : Order Bytes Val) (s : Settings) : List (Bytes × Val) :=
  (o.items s).insertionSort fun i j ↦ i.1 ≤ j.1

/-- The file with the options, `streameyectl.py:362-372`. -/
def render (o : Order Bytes Val) (s : Settings) : Bytes :=
  unlines ((sortedItems o s).map optionLine)

/-- `_set_raspimjpeg_settings`: the new `raspimjpeg.conf`. -/
def setRaspimjpegSettings (o : Order Bytes Val) (s : Settings) : Option Bytes :=
  (toOptions o s).map (render o)

end MotionPie.Board.Raspberrypi.Raspimjpeg
