import MotionPie.Support.MkUsers.Patterns

/-!
# The mkusers script on the bytes of the files

`add_one_group` and `add_one_user` of `support/scripts/mkusers`, for files with any content and
for all names that a package may use. What awk takes for equal, and for a number, is a
parameter. An error is the text that the script prints, empty for a command that fails by
itself, with the files that it leaves.
-/

namespace MotionPie.Support.MkUsers.Text

open Base Shell

/-- The comparison `==` of a field with a variable, and the number that `%d` prints. -/
structure Awk where
  same : Bytes → Bytes → Bool
  number : Bytes → Int

/-- A text that `read` has delivered, or a line that a command prints. -/
abbrev Field := { s : Bytes // newline ∉ s }

/-- What the script calls outside itself: `mkpasswd` with the configured method, and `mkdir -p`
of a directory. -/
structure Env where
  targetDir : Bytes
  encodePassword : Bytes → Option Field
  mkdir : Bytes → Bool

/-- A row of the users table without the user name. `groups` is empty for the text `-`. -/
structure Row where
  uid : Int
  group : PlainName
  gid : Int
  passwd : Field
  home : Field
  shell : Field
  groups : List PlainName
  comment : Field

/-- The names of the additional groups. -/
def Row.additional (r : Row) : List Bytes := r.groups.map Subtype.val

/-- The files of the target directory, with what was printed for the fakeroot script. -/
structure Target where
  passwd : Bytes
  shadow : Bytes
  group : Bytes
  gshadow : Option Bytes
  fakeroot : Bytes

/-! ### Queries -/

/-- `$k` of a line, with `-F:`. -/
def column (k : Nat) (l : Bytes) : Bytes := ((l.splitOn 58)[k - 1]?).getD []

/-- `$k == v { printf( "%d\n", $j ); }`, for a value that is not empty on any line. -/
def Awk.numbers (awk : Awk) (c : Bytes) (k : Nat) (v : Bytes) (j : Nat) : List Int :=
  ((lines c).filter fun l ↦ awk.same (column k l) v).map fun l ↦ awk.number (column j l)

/-- `$( ... )` of `$k == v { printf( "%s\n", $j ); }`. -/
def Awk.texts (awk : Awk) (c : Bytes) (k : Nat) (v : Bytes) (j : Nat) : Bytes :=
  substitute (unlines (((lines c).filter fun l ↦ awk.same (column k l) v).map (column j)))

section Script

variable (awk : Awk) (env : Env)

/-- `support/scripts/mkusers:55-60`. -/
def getUid (t : Target) (username : Bytes) : List Int := awk.numbers t.passwd 1 username 3

/-- `support/scripts/mkusers:63-68`. -/
def getUgid (t : Target) (username : Bytes) : List Int := awk.numbers t.passwd 1 username 4

/-- `support/scripts/mkusers:71-76`. -/
def getGid (t : Target) (group : Bytes) : List Int := awk.numbers t.group 1 group 3

/-- `support/scripts/mkusers:79-84`. -/
def getUsername (t : Target) (uid : Bytes) : Bytes := awk.texts t.passwd 3 uid 1

/-- `support/scripts/mkusers:87-92`. -/
def getGroup (t : Target) (gid : Bytes) : Bytes := awk.texts t.group 3 gid 1

/-- Numbers, each on a line, as the value of a variable. -/
def numbersText (ns : List Int) : Bytes := substitute (unlines (ns.map showInt))

/-- `support/scripts/mkusers:95-103`. -/
def getUgroup (t : Target) (username : Bytes) : Bytes :=
  let ugid := numbersText (getUgid awk t username)
  if ugid = [] then [] else getGroup awk t ugid

/-! ### Checks -/

/-- The text of `fail`, `support/scripts/mkusers:15-25`. -/
def fail (parts : List Bytes) : Bytes := str "mkusers: " ++ parts.flatten

/-- `fail` when the test succeeds. -/
def reject (test : Bool) (parts : List Bytes) : Except Bytes Unit :=
  if test then .error (fail parts) else .ok ()

/-- `[ -n OUT -a OUT != NAME ]`. -/
def usedByOther (out name : Bytes) : Bool := out ≠ [] ∧ out ≠ name

/-- `[ -n OUT ] && [ OUT -ne ID ]`. Several lines are too many arguments, which is no success of
the test either. -/
def differs : List Int → Int → Bool
  | [n], id => n ≠ id
  | _, _ => false

/-- `support/scripts/mkusers:113-182`. -/
def checkUserValidity (t : Target) (username : Bytes) (uid : Int) (group : Bytes) (gid : Int) :
    Except Bytes Unit := do
  let groupOfGid := getGroup awk t (showInt gid)
  let gids := getGid awk t group
  let ugids := getUgid awk t username
  let user := getUsername awk t (showInt uid)
  let uids := getUid awk t username
  let ugroup := getUgroup awk t username
  reject (username = str "root") [str "invalid username '", username, str "\n'"]
  reject (gid < -1 ∨ gid = 0)
    [str "invalid gid '", showInt gid, str "' for '", username, str "'\n"]
  if gid ≠ -1 then
    reject (usedByOther groupOfGid group)
      [str "gid '", showInt gid, str "' for '", username, str "' is already used by group '",
        groupOfGid, str "'\n"]
    reject (differs gids gid)
      [str "group '", group, str "' for '", username, str "' already exists with gid '",
        numbersText gids, str "' (wants '", showInt gid, str "')\n"]
    reject (differs ugids gid)
      [str "user '", username, str "' already exists with gid '", numbersText ugids,
        str "' (wants '", showInt gid, str "')\n"]
  reject (uid < -1 ∨ uid = 0)
    [str "invalid uid '", showInt uid, str "' for '", username, str "'\n"]
  if uid ≠ -1 then
    reject (usedByOther user username)
      [str "uid '", showInt uid, str "' for '", username, str "' already used by user '", user,
        str "'\n"]
    reject (differs uids uid)
      [str "user '", username, str "' already exists with uid '", numbersText uids,
        str "' (wants '", showInt uid, str "')\n"]
  reject (usedByOther ugroup group)
    [str "user '", username, str "' already exists with group '", ugroup, str "' (wants '", group,
      str "')\n"]

/-! ### Groups -/

/-- `MIN_UID` and `MIN_GID`, `support/scripts/mkusers:7-9`. -/
def minId : Nat := 1000

/-- `MAX_UID` and `MAX_GID`, `support/scripts/mkusers:8-10`. -/
def maxId : Nat := 1999

/-- The common part of `generate_gid` and `generate_uid`. `printf` fails on several lines. -/
def generateId (existing : List Int) (inUse : Bytes → Bool) (noId : List Bytes) :
    Except Bytes Int :=
  match existing with
  | [] =>
    match (List.range' minId (maxId + 1 - minId)).find? fun id ↦ !inUse (showNat id) with
    | some id => .ok id
    | none => .error (fail noId)
  | [id] => .ok id
  | _ => .error []

/-- `support/scripts/mkusers:191-207`. -/
def generateGid (t : Target) (group : Bytes) : Except Bytes Int :=
  generateId (getGid awk t group) (fun gid ↦ getGroup awk t gid ≠ [])
    [str "can not allocate a GID for group '", group, str "'\n"]

/-- The line that `add_one_group` appends to `/etc/group`. -/
def groupLine (group : Bytes) (gid : Int) : Bytes :=
  group ++ str ":x:" ++ showInt gid ++ str ":\n"

/-- The line that `add_one_group` appends to `/etc/gshadow`. -/
def gshadowLine (group : Bytes) : Bytes := group ++ str ":*::\n"

/-- The gid of the new line, `support/scripts/mkusers:217-219`. -/
def chooseGid (t : Target) (group : Bytes) (gid : Int) : Except Bytes Int :=
  if gid = -1 then generateGid awk t group else .ok gid

/-- `support/scripts/mkusers:211-230`. -/
def addOneGroup (group : PlainName) (gid : Int) (t : Target) : Except (Bytes × Target) Target := do
  let gid ← (chooseGid awk t group gid).mapError (·, t)
  pure { t with
    group := deleteName group t.group ++ groupLine group gid
    gshadow := t.gshadow.map fun c ↦ deleteName group c ++ gshadowLine group }

/-! ### Users -/

/-- `support/scripts/mkusers:239-255`. -/
def generateUid (t : Target) (username : Bytes) : Except Bytes Int :=
  generateId (getUid awk t username) (fun uid ↦ getUsername awk t uid ≠ [])
    [str "can not allocate a UID for user '", username, str "'\n"]

/-- `support/scripts/mkusers:259-272`, for one file. -/
def editFile (username group : Bytes) (c : Bytes) : Bytes :=
  sed (fun l ↦ some (editLine group username l)) c

/-- `support/scripts/mkusers:259-272`. -/
def addUserToGroup (username group : Bytes) (t : Target) : Target :=
  { t with
    group := editFile username group t.group
    gshadow := t.gshadow.map (editFile username group) }

/-- The home of the passwd line, `support/scripts/mkusers:314-319`. -/
def expandHome (home : Bytes) : Except Bytes Bytes :=
  if home = str "-" then .ok (str "/")
  else if home = str "/" then .error (fail [str "home can not explicitly be '/'\n"])
  else if home.head? = some 47 then .ok home
  else .error (fail [str "home must be an absolute path\n"])

/-- The password of the shadow line, `support/scripts/mkusers:320-333`. -/
def expandPasswd (passwd : Bytes) : Except Bytes Bytes :=
  if passwd = str "-" then .ok []
  else if str "!=" <+: passwd then
    match env.encodePassword (passwd.drop 2) with
    | some enc => .ok (str "!" ++ enc)
    | none => .error []
  else if str "=" <+: passwd then
    match env.encodePassword (passwd.drop 1) with
    | some enc => .ok enc
    | none => .error []
  else .ok passwd

/-- The shell of the passwd line, `support/scripts/mkusers:310-313`. -/
def expandShell (shell : Bytes) : Bytes := if shell = str "-" then str "/bin/false" else shell

/-- The line that `add_one_user` appends to `/etc/passwd`. -/
def passwdLine (username : Bytes) (uid gid : Int) (comment home shell : Bytes) : Bytes :=
  username ++ str ":x:" ++ showInt uid ++ str ":" ++ showInt gid ++ str ":" ++ comment ++
    str ":" ++ home ++ str ":" ++ shell ++ str "\n"

/-- The line that `add_one_user` appends to `/etc/shadow`. -/
def shadowLine (username passwd : Bytes) : Bytes := username ++ str ":" ++ passwd ++ str ":::::::\n"

/-- The line for the fakeroot script, `support/scripts/mkusers:354`. -/
def chownLine (uid gid : Int) (dir : Bytes) : Bytes :=
  str "chown -h -R " ++ showInt uid ++ str ":" ++ showInt gid ++ str " '" ++ dir ++ str "'\n"

/-- The uid of the passwd line, `support/scripts/mkusers:299-302`. -/
def chooseUid (t : Target) (username : Bytes) (uid : Int) : Except Bytes Int :=
  if uid = -1 then generateUid awk t username else .ok uid

/-- Remove any previous instance of a user, `support/scripts/mkusers:304-307`. -/
def removeUser (username : Bytes) (t : Target) : Target :=
  { t with
    passwd := deleteName username t.passwd
    shadow := deleteName username t.shadow }

/-- The last part of `add_one_user`, `support/scripts/mkusers:335-355`. For `printf "%d"` no
line is 0, and the second of several lines is an error after the first is written. -/
def writeUser (username : Bytes) (r : Row) (uid : Int) (gids : List Int) (home passwd : Bytes)
    (t : Target) : Except (Bytes × Target) Target :=
  let gid := gids.headD 0
  let line := passwdLine username uid gid r.comment home (expandShell r.shell)
  let t := { t with passwd := t.passwd ++ line }
  if 1 < gids.length then .error ([], t)
  else
    let t := { t with shadow := t.shadow ++ shadowLine username passwd }
    let t := r.additional.foldl (fun t g ↦ addUserToGroup username g t) t
    if r.home.val = str "-" then .ok t
    else
      let dir := env.targetDir ++ str "/" ++ r.home
      if env.mkdir dir then
        .ok { t with fakeroot := t.fakeroot ++ chownLine uid gid dir }
      else .error ([], t)

/-- `support/scripts/mkusers:284-356`. -/
def addOneUser (username : PlainName) (r : Row) (t : Target) :
    Except (Bytes × Target) Target := do
  (checkUserValidity awk t username r.uid r.group r.gid).mapError (·, t)
  let uid ← (chooseUid awk t username r.uid).mapError (·, t)
  let t := removeUser username t
  let gids := getGid awk t r.group
  let home ← (expandHome r.home).mapError (·, t)
  let passwd ← (expandPasswd env r.passwd).mapError (·, t)
  writeUser env username r uid gids home passwd t

end Script

/-- The files after a call, whether it fails or not. -/
def after : Except (Bytes × Target) Target → Target
  | .ok t => t
  | .error (_, t) => t

end MotionPie.Support.MkUsers.Text
