import Mathlib.Logic.Function.Basic
import MotionPie.Base.Run
import MotionPie.Support.Download.CheckHash

/-!
# Concurrent dl-wrapper processes

`support/download/dl-wrapper` runs any number of times at once, with one output file and
one `.hash` file. Each process is a program counter; a step executes the next command of
one process, and its label says how the command ends. Names from `mktemp` are numbers,
fresh when they are given out. Permissions are left out, and so are the temporaries of the
backend other than `tmpf`.
-/

namespace MotionPie.Support.Download

open Base

/-- The files that the processes share. A temporary directory may hold `tmpf`. -/
structure Files where
  output : Option Content
  tmpd : Nat → Option (Option Content)
  tmpOutput : Nat → Option Content

/-- The next command of a process, `support/download/dl-wrapper:53-142`, with the temporary
directory `d` and the temporary output `o` that it has made. -/
inductive Pc
  | testOutput
  | startOutput
  | checkOutput (c : Check)
  | rmOutput
  | mktempDir
  | cdTmpd (d : Nat)
  | backend (d : Nat)
  | cdBack (d : Nat)
  | startTmpf (d : Nat)
  | checkTmpf (d : Nat) (c : Check)
  | rmTmpd (d : Nat)
  | mktempOutput (d : Nat)
  | chmod (d o : Nat)
  | openTmpf (d o : Nat)
  | cat (d o : Nat) (left : Content)
  | rmBoth (d o : Nat)
  | rmTmpdDone (d o : Nat)
  | mv (o : Nat)
  | rmTmpOutput (o : Nat)
  | exited (code : Nat)
  | killed
  deriving DecidableEq

/-- How the next command of a process ends. `sum` is a failing `*sum` tool, `abort` a
check-hash that dies; the backend writes and `cat` appends as often as they like. -/
inductive Ending
  | ok
  | fail
  | name (k : Nat)
  | write (file : Option Content)
  | append (n : Nat)
  | sum
  | abort
  | kill
  deriving DecidableEq

/-- What is remembered of a run: downloads that a backend has completed, and contents that
check-hash has accepted as downloads, each with the process. -/
inductive Event
  | downloaded (p : Nat) (file : Content)
  | accepted (p : Nat) (file : Content)

/-- The state of all processes. -/
structure State where
  files : Files
  pc : Nat → Pc
  log : List Event

/-- The process after check-hash has tested the output, `support/download/dl-wrapper:54-62`. -/
def afterCheckOutput : Nat → Pc
  | 0 => .exited 0
  | 2 => .rmOutput
  | _ => .exited 1

/-- The process after check-hash has tested the download, `support/download/dl-wrapper:95-98`. -/
def afterCheckTmpf (d : Nat) : Nat → Pc
  | 0 => .mktempOutput d
  | _ => .rmTmpd d

/-- The process while check-hash runs. -/
def ofProgress (running : Check → Pc) (after : Nat → Pc) : Progress → Pc
  | .running c => running c
  | .exited code => after code

/-- The line that check-hash looks at needs a `*sum` tool. -/
def needsSum (h : Hashes) (c : Check) : Bool :=
  match c.lines with
  | [] => false
  | l :: _ => h.names l && l.type ∈ knownTypes

/-- The event of a process that has a content in its temporary directory. -/
def eventOf (event : Content → Event) (file : Option (Option Content)) : List Event :=
  match file with
  | some (some x) => [event x]
  | _ => []

/-- The events when process `p` goes on to `mktempOutput`. -/
def acceptedBy (p : Nat) (next : Pc) (file : Option (Option Content)) : List Event :=
  match next with
  | .mktempOutput _ => eventOf (.accepted p) file
  | _ => []

/-- Change the temporary directory `d`. -/
def Files.setTmpd (fs : Files) (d : Nat) (v : Option (Option Content)) : Files :=
  { fs with tmpd := Function.update fs.tmpd d v }

/-- Change the temporary output `o`. -/
def Files.setTmpOutput (fs : Files) (o : Nat) (v : Option Content) : Files :=
  { fs with tmpOutput := Function.update fs.tmpOutput o v }

/-- Execute the next command of process `p`, `support/download/dl-wrapper:53-142`. -/
def command (h : Hashes) (p : Nat) (fs : Files) : Pc → Ending → Option (Pc × Files × List Event)
  | .testOutput, .ok => some (if fs.output.isSome then .startOutput else .mktempDir, fs, [])
  | .startOutput, .ok => some (ofProgress .checkOutput afterCheckOutput (startCheck h), fs, [])
  | .startOutput, .abort => some (.exited 1, fs, [])
  | .checkOutput c, .ok =>
    some (ofProgress .checkOutput afterCheckOutput (stepCheck h c fs.output), fs, [])
  | .checkOutput c, .sum => if needsSum h c then some (afterCheckOutput 2, fs, []) else none
  | .checkOutput _, .abort => some (.exited 1, fs, [])
  | .rmOutput, .ok => some (.mktempDir, { fs with output := none }, [])
  | .rmOutput, .fail => some (.exited 1, fs, [])
  | .mktempDir, .name d =>
    if (fs.tmpd d).isNone then some (.cdTmpd d, fs.setTmpd d (some none), []) else none
  | .mktempDir, .fail => some (.exited 1, fs, [])
  | .cdTmpd d, .ok => some (.backend d, fs, [])
  | .cdTmpd _, .fail => some (.exited 1, fs, [])
  | .backend d, .write file => some (.backend d, fs.setTmpd d (some file), [])
  | .backend d, .ok => some (.cdBack d, fs, eventOf (.downloaded p) (fs.tmpd d))
  | .backend d, .fail => some (.rmTmpd d, fs, [])
  | .cdBack d, .ok => some (.startTmpf d, fs, [])
  | .cdBack _, .fail => some (.exited 1, fs, [])
  | .startTmpf d, .ok =>
    let next := ofProgress (.checkTmpf d) (afterCheckTmpf d) (startCheck h)
    some (next, fs, acceptedBy p next (fs.tmpd d))
  | .startTmpf d, .abort => some (.rmTmpd d, fs, [])
  | .checkTmpf d c, .ok =>
    let next := ofProgress (.checkTmpf d) (afterCheckTmpf d) (stepCheck h c ((fs.tmpd d).getD none))
    some (next, fs, acceptedBy p next (fs.tmpd d))
  | .checkTmpf d c, .sum => if needsSum h c then some (afterCheckTmpf d 2, fs, []) else none
  | .checkTmpf d _, .abort => some (.rmTmpd d, fs, [])
  | .rmTmpd d, .ok => some (.exited 1, fs.setTmpd d none, [])
  | .rmTmpd _, .fail => some (.exited 1, fs, [])
  | .mktempOutput d, .name o =>
    if (fs.tmpOutput o).isNone then some (.chmod d o, fs.setTmpOutput o (some []), []) else none
  | .mktempOutput _, .fail => some (.exited 1, fs, [])
  | .chmod d o, .ok => some (.openTmpf d o, fs, [])
  | .chmod _ _, .fail => some (.exited 1, fs, [])
  | .openTmpf d o, .ok =>
    match fs.tmpd d with
    | some (some file) => some (.cat d o file, fs, [])
    | _ => some (.rmBoth d o, fs, [])
  | .openTmpf d o, .fail => some (.rmBoth d o, fs, [])
  | .cat d o left, .append n =>
    some (.cat d o (left.drop n),
      fs.setTmpOutput o ((fs.tmpOutput o).map (· ++ left.take n)), [])
  | .cat d o left, .ok => if left = [] then some (.rmTmpdDone d o, fs, []) else none
  | .cat d o _, .fail => some (.rmBoth d o, fs, [])
  | .rmBoth d o, .ok => some (.rmTmpOutput o, fs.setTmpd d none, [])
  | .rmBoth _ o, .fail => some (.rmTmpOutput o, fs, [])
  | .rmTmpdDone d o, .ok => some (.mv o, fs.setTmpd d none, [])
  | .rmTmpdDone _ _, .fail => some (.exited 1, fs, [])
  | .mv o, .ok =>
    match fs.tmpOutput o with
    | some file => some (.exited 0, { fs.setTmpOutput o none with output := some file }, [])
    | none => some (.rmTmpOutput o, fs, [])
  | .mv o, .fail => some (.rmTmpOutput o, fs, [])
  | .rmTmpOutput o, .ok => some (.exited 1, fs.setTmpOutput o none, [])
  | .rmTmpOutput _, .fail => some (.exited 1, fs, [])
  | .exited _, _ => none
  | .killed, _ => none
  | _, .kill => some (.killed, fs, [])
  | _, _ => none

/-- A process executes its next command. -/
def step (h : Hashes) (s : State) (a : Nat × Ending) : Option State :=
  (command h a.1 s.files (s.pc a.1) a.2).map fun (pc, files, events) ↦
    ⟨files, Function.update s.pc a.1 pc, s.log ++ events⟩

/-- No process has started; there are no temporaries. -/
def initial (output : Option Content) : State :=
  ⟨⟨output, fun _ ↦ none, fun _ ↦ none⟩, fun _ ↦ .testOutput, []⟩

end MotionPie.Support.Download
