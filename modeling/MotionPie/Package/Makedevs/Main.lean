import MotionPie.Package.Makedevs.MakeDirectory
import MotionPie.Package.Makedevs.Table

/-!
# The lines of the table, carried out

`package/makedevs/makedevs.c:253-328,370-571`: the owners are looked up, then the file that the line
names is made or changed. The system calls, the directory walk of `nftw` and the two databases are
parameters. The arrays for the user and the group keep, from line to line, what was last stored in
them.
-/

namespace MotionPie.Package.Makedevs

open Base

universe u

/-- The number of a device, from `makedev`. -/
structure Device where
  major : UInt32
  minor : UInt32
  deriving DecidableEq

/-- The other system calls of the program; the file mode creation mask is `0`. `nftw` goes over a
tree with a visitor, which stops it with a message: there is no result when all went well, a message
when the visitor failed, and none when `nftw` itself did. -/
structure Kernel (σ : Type u) extends FileCalls σ where
  chown (path : Bytes) (uid gid : UInt32) : σ → Option Errno × σ
  mknod (path : Bytes) (mode : UInt32) (rdev : Device) : σ → Option Errno × σ
  nftw (path : Bytes) (visit : Bytes → σ → Option Bytes × σ) : σ → Option (Option Bytes) × σ

/-- The root directory, the user and the group that the program runs as, and the databases. -/
structure Env where
  rootdir : Bytes
  uid : UInt32
  gid : UInt32
  getpwnam : Bytes → Option UInt32
  getgrnam : Bytes → Option UInt32

/-- A message on standard error, with `line %d` before its text or without. The reason that
`perror` puts behind a message is left out. -/
structure Report where
  numbered : Bool
  text : Bytes
  deriving DecidableEq

/-- What a line has done: the files, the messages, and whether `ret` is `EXIT_FAILURE` now. -/
structure Acted (σ : Type u) where
  files : σ
  reports : List Report
  failed : Bool

variable {σ : Type u}

/-- A message for the line, and the exit status. -/
def Acted.fail (a : Acted σ) (text : Bytes) : Acted σ :=
  { a with reports := a.reports ++ [⟨true, str ": " ++ text⟩], failed := true }

/-- A system call, with the message when it fails. -/
def Acted.attempt (a : Acted σ) (call : σ → Option Errno × σ) (text : Bytes) : Bool × Acted σ :=
  let made := call a.files
  if made.1 = none then (true, { a with files := made.2 })
  else (false, { a with files := made.2 }.fail text)

/-- `get_ug_id`, `makedevs.c:275-288`; `none` where the program ends with `unknown user name` or
`unknown group name`. -/
def getUgId (getxxnam : Bytes → Option UInt32) (s : Bytes) : Option UInt32 :=
  let signed := takeSign (s.dropWhile isSpace)
  let digits := signed.2.takeWhile (isDigitIn 10)
  if digits = [] ∨ signed.2.drop digits.length ≠ [] then getxxnam s
  else some (toUnsigned signed.1 (digitsValue 10 digits))

/-- `concat_path_file`, `makedevs.c:315-328`. -/
def concatPathFile (path filename : Bytes) : Bytes :=
  path ++ (if path.getLast? = some slash then [] else [slash]) ++
    filename.dropWhile fun b ↦ b == slash

/-- `mode != -1`. -/
def hasMode (mode : UInt32) : Bool := mode != 0xffffffff

/-- `chown`, and `chmod` when that has gone well, `makedevs.c:472-481` and `489-498`. -/
def own (kernel : Kernel σ) (mode uid gid : UInt32) (path : Bytes) (a : Acted σ) : Acted σ :=
  let owned := a.attempt (kernel.chown path uid gid) (str "chown failed for " ++ path)
  if owned.1 && hasMode mode then
    (owned.2.attempt (kernel.chmod path mode.toNat) (str "chmod failed for " ++ path)).2
  else owned.2

/-- A directory, `makedevs.c:470-481`; the path is in the buffer that `bb_make_directory` has
worked on. -/
def actDirectory (kernel : Kernel σ) (mode uid gid : UInt32) (path : Bytes) (files : σ) :
    Option (Acted σ) :=
  (makeDirectory kernel.toFileCalls path (some (mode ||| 0o40000).toNat) true 0 files).map
    fun r ↦ own kernel mode uid gid (text r.buf)
      ⟨r.files, (r.failed.map fun x ↦ ⟨false, str "Cannot " ++ x.1 ++ str " directory `" ++ x.2 ++
        str "'"⟩).toList, false⟩

/-- A regular file, `makedevs.c:482-498`. -/
def actFile (kernel : Kernel σ) (mode uid gid : UInt32) (path : Bytes) (files : σ) : Acted σ :=
  let a : Acted σ := ⟨files, [], false⟩
  if kernel.stat path files = some .regular then own kernel mode uid gid path a
  else a.fail (str "regular file '" ++ path ++ str "' does not exist")

/-- `bb_recursive`, `makedevs.c:371-387`. -/
def recursive (kernel : Kernel σ) (mode uid gid : UInt32) (path : Bytes) (files : σ) :
    Option Bytes × σ :=
  let owned := kernel.chown path uid gid files
  if owned.1 ≠ none then (some (str "chown failed for " ++ path), owned.2)
  else if hasMode mode then
    let changed := kernel.chmod path mode.toNat owned.2
    if changed.1 ≠ none then (some (str "chmod failed for " ++ path), changed.2)
    else (none, changed.2)
  else (none, owned.2)

/-- A directory and what is in it, `makedevs.c:499-507`. -/
def actRecursive (kernel : Kernel σ) (mode uid gid : UInt32) (path : Bytes) (files : σ) :
    Acted σ :=
  let walked := kernel.nftw path (recursive kernel mode uid gid) files
  match walked.1 with
  | none => ⟨walked.2, [], false⟩
  | some message =>
    (⟨walked.2, (message.map (⟨false, ·⟩)).toList, false⟩ : Acted σ).fail
      (str "recursive failed for " ++ path)

/-- The file type bits of a node, `makedevs.c:512-524`. -/
def nodeType (type : UInt8) : Option UInt32 :=
  if type = 112 then some 0o10000
  else if type = 99 then some 0o20000
  else if type = 98 then some 0o60000
  else none

/-- A node, `makedevs.c:534-545` and `550-561`. -/
def makeNode (kernel : Kernel σ) (mode uid gid : UInt32) (path : Bytes) (rdev : Device)
    (a : Acted σ) : Acted σ :=
  let made := a.attempt (kernel.mknod path mode rdev) (str "Couldnt create node " ++ path)
  let owned := if made.1 then
    (made.2.attempt (kernel.chown path uid gid) (str "chown failed for " ++ path)).2 else made.2
  if hasMode mode then
    (owned.attempt (kernel.chmod path mode.toNat) (str "chmod failed for " ++ path)).2
  else owned

/-- The number behind the name of node `i`, printed with `%d`, `makedevs.c:532`. -/
def nodeName (path : Bytes) (v : Fields) (i : ℕ) : Bytes :=
  path ++ showInt (v.start + UInt32.ofNat i).toInt32.toInt

/-- The device of node `i`, `makedevs.c:533`. -/
def nodeDevice (v : Fields) (i : ℕ) : Device := ⟨v.major, v.minor + UInt32.ofNat i * v.increment⟩

/-- Nodes, `makedevs.c:508-563`. -/
def actNodes (kernel : Kernel σ) (v : Fields) (uid gid : UInt32) (path : Bytes) (files : σ) :
    Acted σ :=
  let a : Acted σ := ⟨files, [], false⟩
  match nodeType v.type with
  | none => a.fail (str "Unsupported file type " ++ [v.type])
  | some bits =>
    if 0 < v.count then
      (List.range v.count.toNat).foldl (fun a i ↦
        makeNode kernel (v.mode ||| bits) uid gid (nodeName path v i) (nodeDevice v i) a) a
    else makeNode kernel (v.mode ||| bits) uid gid path ⟨v.major, v.minor⟩ a

/-- The line with these fields, `makedevs.c:458-563`: the message with which the program ends, or
what has been done. -/
def act (kernel : Kernel σ) (env : Env) (v : Fields) (files : σ) :
    Option (Except Bytes (Acted σ)) :=
  match if v.group ≠ [] then getUgId env.getgrnam v.group else some env.gid with
  | none => some (.error (str "unknown group name: " ++ v.group))
  | some gid =>
    match if v.user ≠ [] then getUgId env.getpwnam v.user else some env.uid with
    | none => some (.error (str "unknown user name: " ++ v.user))
    | some uid =>
      let path := concatPathFile env.rootdir v.name
      if v.type = 100 then (actDirectory kernel v.mode uid gid path files).map .ok
      else if v.type = 102 then some (.ok (actFile kernel v.mode uid gid path files))
      else if v.type = 114 then some (.ok (actRecursive kernel v.mode uid gid path files))
      else some (.ok (actNodes kernel v uid gid path files))

/-- What a line does, read into variables that hold `memory`, `makedevs.c:444-563`. -/
def treat (kernel : Kernel σ) (env : Env) (memory : Memory) (files : σ) (line : Bytes) :
    Option (Except Bytes (Acted σ)) :=
  match check memory line with
  | .skipped => some (.ok ⟨files, [], false⟩)
  | .invalid =>
    some (.ok ⟨files, [⟨true, str " invalid: '" ++ line ++ str "'" ++ [newline]⟩], true⟩)
  | .accepted v => act kernel env v files

/-- The program between two lines. -/
structure Session (σ : Type u) where
  memory : Memory
  linenum : ℕ
  files : σ
  failed : Bool
  stderr : List Bytes

/-- The text of a message. -/
def Report.printed (linenum : ℕ) (r : Report) : Bytes :=
  if r.numbered then str "line " ++ showNat linenum ++ r.text else r.text

/-- What the variables of a line hold after the scan. -/
def Memory.after (memory : Memory) (line : Bytes) : Memory :=
  let v := (sscanf format line memory.fields).2
  ⟨v.name, v.type, v.user, v.group⟩

/-- One line of the table, `makedevs.c:427-567`. -/
def step (kernel : Kernel σ) (env : Env) (s : Session σ) (line : Bytes) :
    Option (Except Bytes (Session σ)) :=
  (treat kernel env s.memory s.files line).map fun r ↦ r.map fun a ↦
    ⟨s.memory.after line, s.linenum + 1, a.files, s.failed || a.failed,
      s.stderr ++ a.reports.map (Report.printed (s.linenum + 1))⟩

/-- The lines of the table, until the program ends. -/
def run (kernel : Kernel σ) (env : Env) : List Bytes → Session σ →
    Option (Except Bytes (Session σ))
  | [], s => some (.ok s)
  | line :: table, s => match step kernel env s line with
    | some (.ok s) => run kernel env table s
    | ended => ended

/-- The program before the first line. -/
def start (memory : Memory) (files : σ) : Session σ := ⟨memory, 0, files, false, []⟩

/-- A system in which all calls go well, and that keeps nothing. -/
def quiet : Kernel Unit where
  mkdir _ _ _ _ := (none, ())
  stat _ _ := some .regular
  chmod _ _ _ := (none, ())
  chown _ _ _ _ := (none, ())
  mknod _ _ _ _ := (none, ())
  nftw _ _ _ := (none, ())

/-- The superuser, with no names in the databases. -/
def rootEnv : Env := ⟨str "/target", 0, 0, fun _ ↦ none, fun _ ↦ none⟩

end MotionPie.Package.Makedevs
