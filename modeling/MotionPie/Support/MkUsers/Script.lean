import MotionPie.Base.Upsert
import MotionPie.Support.MkUsers.Files

/-!
# The mkusers script

`support/scripts/mkusers` adds the users and groups of a users table to the files of a
target directory. The output of a command substitution is the list of its lines. A failing
command ends the script, by `set -e` or by `fail`; the files it leaves are part of the
result. A row of the table has all its fields; blank rows are left out of the table.
-/

namespace MotionPie.Support.MkUsers

open Base

/-- A row of the users table. `username` is `none` for the text `-`, and `groups` is empty
for the text `-`. -/
structure Row where
  username : Option Name
  uid : Int
  group : Name
  gid : Int
  passwd : String
  home : String
  shell : String
  groups : List Name
  comment : String

/-- A `chown` line of the fakeroot script. -/
structure Chown where
  uid : Nat
  gid : Nat
  home : String
  deriving DecidableEq, Repr

/-- The files of the target directory, with what was printed for the fakeroot script. -/
@[ext] structure Target where
  passwd : List PasswdLine
  shadow : List ShadowLine
  group : List GroupLine
  gshadow : Option (List GshadowLine)
  fakeroot : List Chown

/-- What the script calls outside itself: `mkpasswd` with the configured method
(`support/scripts/mkusers:276-280`), and `mkdir -p` of a home. -/
structure Env where
  encodePassword : String → Option String
  mkdir : String → Bool

/-- Why a run ends early. `command` is a failing command that is not a `fail`. -/
inductive Failure
  | invalidUsername (username : Name)
  | invalidGid (gid : Int) (username : Name)
  | gidInUse (gid : Int) (username : Name) (group : List String)
  | groupHasGid (group username : Name) (has : List Nat) (wants : Int)
  | userHasGid (username : Name) (has : List Nat) (wants : Int)
  | invalidUid (uid : Int) (username : Name)
  | uidInUse (uid : Int) (username : Name) (user : List String)
  | userHasUid (username : Name) (has : List Nat) (wants : Int)
  | userHasGroup (username : Name) (has : List String) (wants : Name)
  | noGid (group : Name)
  | noUid (username : Name)
  | homeIsRoot
  | homeIsRelative
  | command
  deriving DecidableEq

/-- The text of `fail`, `support/scripts/mkusers:15-25`, with the formats of its callers. -/
def Failure.message : Failure → String
  | invalidUsername u => s!"mkusers: invalid username '{u}\n'"
  | invalidGid n u => s!"mkusers: invalid gid '{n}' for '{u}'\n"
  | gidInUse n u g => s!"mkusers: gid '{n}' for '{u}' is already used by group '{lines g}'\n"
  | groupHasGid g u h n =>
    s!"mkusers: group '{g}' for '{u}' already exists with gid '{numbers h}' (wants '{n}')\n"
  | userHasGid u h n =>
    s!"mkusers: user '{u}' already exists with gid '{numbers h}' (wants '{n}')\n"
  | invalidUid n u => s!"mkusers: invalid uid '{n}' for '{u}'\n"
  | uidInUse n u v => s!"mkusers: uid '{n}' for '{u}' already used by user '{lines v}'\n"
  | userHasUid u h n =>
    s!"mkusers: user '{u}' already exists with uid '{numbers h}' (wants '{n}')\n"
  | userHasGroup u h g =>
    s!"mkusers: user '{u}' already exists with group '{lines h}' (wants '{g}')\n"
  | noGid g => s!"mkusers: can not allocate a GID for group '{g}'\n"
  | noUid u => s!"mkusers: can not allocate a UID for user '{u}'\n"
  | homeIsRoot => "mkusers: home can not explicitly be '/'\n"
  | homeIsRelative => "mkusers: home must be an absolute path\n"
  | command => ""
where
  lines (l : List String) : String := "\n".intercalate l
  numbers (l : List Nat) : String := " ".intercalate (l.map toString)

/-! ### Queries -/

/-- `support/scripts/mkusers:55-60`. -/
def getUid (t : Target) (username : String) : List Nat :=
  (t.passwd.filter fun l ↦ l.name = username).map PasswdLine.uid

/-- `support/scripts/mkusers:63-68`. -/
def getUgid (t : Target) (username : String) : List Nat :=
  (t.passwd.filter fun l ↦ l.name = username).map PasswdLine.gid

/-- `support/scripts/mkusers:71-76`. -/
def getGid (t : Target) (group : String) : List Nat :=
  (t.group.filter fun l ↦ l.name = group).map GroupLine.gid

/-- `support/scripts/mkusers:79-84`. -/
def getUsername (t : Target) (uid : Int) : List String :=
  (t.passwd.filter fun l ↦ (l.uid : Int) = uid).map PasswdLine.name

/-- `support/scripts/mkusers:87-92`. -/
def getGroup (t : Target) (gid : Int) : List String :=
  (t.group.filter fun l ↦ (l.gid : Int) = gid).map GroupLine.name

/-- `support/scripts/mkusers:95-103`. Several lines are not the number of any group. -/
def getUgroup (t : Target) (username : String) : List String :=
  match getUgid t username with
  | [gid] => getGroup t gid
  | _ => []

/-! ### Checks -/

/-- `fail` when the test succeeds. -/
def reject (test : Bool) (e : Failure) : Except Failure Unit :=
  if test then .error e else .ok ()

/-- `[ -n OUT -a OUT != NAME ]`. -/
def usedByOther (out : List String) (name : String) : Bool := out ≠ [] ∧ out ≠ [name]

/-- `[ -n OUT ] && [ OUT -ne ID ]`. Several lines are too many arguments, which is no
success of the test either. -/
def differs : List Nat → Int → Bool
  | [n], id => (n : Int) ≠ id
  | _, _ => false

/-- `support/scripts/mkusers:113-182`. -/
def checkUserValidity (t : Target) (username : Name) (uid : Int) (group : Name) (gid : Int) :
    Except Failure Unit := do
  reject (username.val = "root") (.invalidUsername username)
  reject (gid < -1 ∨ gid = 0) (.invalidGid gid username)
  if gid ≠ -1 then
    reject (usedByOther (getGroup t gid) group) (.gidInUse gid username (getGroup t gid))
    reject (differs (getGid t group) gid) (.groupHasGid group username (getGid t group) gid)
    reject (differs (getUgid t username) gid) (.userHasGid username (getUgid t username) gid)
  reject (uid < -1 ∨ uid = 0) (.invalidUid uid username)
  if uid ≠ -1 then
    reject (usedByOther (getUsername t uid) username)
      (.uidInUse uid username (getUsername t uid))
    reject (differs (getUid t username) uid) (.userHasUid username (getUid t username) uid)
  reject (usedByOther (getUgroup t username) group)
    (.userHasGroup username (getUgroup t username) group)

/-! ### Groups -/

/-- `MIN_UID` and `MIN_GID`, `support/scripts/mkusers:7-9`. The sanity checks of `main` on
them, `support/scripts/mkusers:363-368`, pass. -/
def minId : Nat := 1000

/-- `MAX_UID` and `MAX_GID`, `support/scripts/mkusers:8-10`. -/
def maxId : Nat := 1999

/-- The common part of `generate_gid` and `generate_uid`: the lines of the existing id, or
else the lowest id in the range that is not in use. `printf` fails on several lines. -/
def generateId (existing : List Nat) (inUse : Nat → Bool) (e : Failure) : Except Failure Nat :=
  match existing with
  | [] =>
    match (List.range' minId (maxId + 1 - minId)).find? fun id ↦ !inUse id with
    | some id => .ok id
    | none => .error e
  | [id] => .ok id
  | _ => .error .command

/-- `support/scripts/mkusers:191-207`. -/
def generateGid (t : Target) (group : Name) : Except Failure Nat :=
  generateId (getGid t group) (fun gid ↦ getGroup t gid ≠ []) (.noGid group)

/-- The line that `add_one_group` appends to `/etc/group`. -/
def groupLine (group : Name) (gid : Nat) : GroupLine :=
  ⟨group, "x", gid, .empty, group.ne_empty⟩

/-- The line that `add_one_group` appends to `/etc/gshadow`. -/
def gshadowLine (group : Name) : GshadowLine := ⟨group, "*", .empty, .empty⟩

/-- `support/scripts/mkusers:211-230`. `main` calls it with -1 or a gid that is not
negative. -/
def addOneGroup (group : Name) (gid : Int) (t : Target) : Except (Failure × Target) Target := do
  let gid ← if gid = -1 then (generateGid t group).mapError (·, t) else pure gid.toNat
  pure { t with
    group := upsert GroupLine.name t.group (groupLine group gid)
    gshadow := t.gshadow.map fun ls ↦ upsert GshadowLine.name ls (gshadowLine group) }

/-! ### Users -/

/-- `support/scripts/mkusers:239-255`. -/
def generateUid (t : Target) (username : Name) : Except Failure Nat :=
  generateId (getUid t username) (fun uid ↦ getUsername t uid ≠ []) (.noUid username)

/-- `support/scripts/mkusers:259-272`. -/
def addUserToGroup (username group : Name) (t : Target) : Target :=
  { t with
    group := t.group.map (editGroupLine username group)
    gshadow := t.gshadow.map (List.map (editGshadowLine username group)) }

/-- The home of the passwd line, `support/scripts/mkusers:314-319`. -/
def expandHome (home : String) : Except Failure String :=
  if home = "-" then .ok "/"
  else if home = "/" then .error .homeIsRoot
  else if home.startsWith "/" then .ok home
  else .error .homeIsRelative

/-- The password of the shadow line, `support/scripts/mkusers:320-333`. -/
def expandPasswd (env : Env) (passwd : String) : Except Failure String :=
  if passwd = "-" then .ok ""
  else if passwd.startsWith "!=" then
    match env.encodePassword (passwd.drop 2).toString with
    | some enc => .ok ("!" ++ enc)
    | none => .error .command
  else if passwd.startsWith "=" then
    match env.encodePassword (passwd.drop 1).toString with
    | some enc => .ok enc
    | none => .error .command
  else .ok passwd

/-- The shell of the passwd line, `support/scripts/mkusers:310-313`. -/
def expandShell (shell : String) : String := if shell = "-" then "/bin/false" else shell

/-- The line that `add_one_user` appends to `/etc/passwd`. -/
def passwdLine (username : Name) (uid gid : Nat) (comment home shell : String) : PasswdLine :=
  ⟨username, "x", uid, gid, comment, home, shell, username.ne_empty⟩

/-- The line that `add_one_user` appends to `/etc/shadow`. -/
def shadowLine (username : Name) (passwd : String) : ShadowLine :=
  ⟨username, passwd, List.replicate 7 ""⟩

/-- The uid of the passwd line, `support/scripts/mkusers:299-302`. -/
def chooseUid (t : Target) (username : Name) (uid : Int) : Except Failure Nat :=
  if uid = -1 then generateUid t username else .ok uid.toNat

/-- Remove any previous instance of a user, `support/scripts/mkusers:304-307`. -/
def removeUser (username : Name) (t : Target) : Target :=
  { t with
    passwd := t.passwd.filter fun l ↦ l.name ≠ username
    shadow := t.shadow.filter fun l ↦ l.name ≠ username }

/-- The last part of `add_one_user`, `support/scripts/mkusers:335-355`. For `printf "%d"` no
line is 0, and the second of several lines is an error after the first is written. -/
def writeUser (env : Env) (username : Name) (r : Row) (uid : Nat) (gids : List Nat)
    (home passwd : String) (t : Target) : Except (Failure × Target) Target :=
  let gid := gids.headD 0
  let line := passwdLine username uid gid r.comment home (expandShell r.shell)
  let t := { t with passwd := t.passwd ++ [line] }
  if 1 < gids.length then .error (.command, t)
  else
    let t := { t with shadow := t.shadow ++ [shadowLine username passwd] }
    let t := r.groups.foldl (fun t g ↦ addUserToGroup username g t) t
    if r.home = "-" then .ok t
    else if env.mkdir r.home then .ok { t with fakeroot := t.fakeroot ++ [⟨uid, gid, r.home⟩] }
    else .error (.command, t)

/-- `support/scripts/mkusers:284-356`, for the row `r` of user `username`. -/
def addOneUser (env : Env) (username : Name) (r : Row) (t : Target) :
    Except (Failure × Target) Target := do
  (checkUserValidity t username r.uid r.group r.gid).mapError (·, t)
  let uid ← (chooseUid t username r.uid).mapError (·, t)
  let t := removeUser username t
  let gids := getGid t r.group
  let home ← (expandHome r.home).mapError (·, t)
  let passwd ← (expandPasswd env r.passwd).mapError (·, t)
  writeUser env username r uid gids home passwd t

/-! ### The five passes -/

/-- `support/scripts/mkusers:375-380`. -/
def addExplicitGroups (table : List Row) (t : Target) : Except (Failure × Target) Target :=
  table.foldlM (fun t r ↦ if 0 ≤ r.gid then addOneGroup r.group r.gid t else pure t) t

/-- `support/scripts/mkusers:382-387`. -/
def addAutomaticGroups (table : List Row) (t : Target) : Except (Failure × Target) Target :=
  table.foldlM (fun t r ↦ if r.gid = -1 then addOneGroup r.group r.gid t else pure t) t

/-- `support/scripts/mkusers:389-399`. -/
def addAdditionalGroups (table : List Row) (t : Target) : Except (Failure × Target) Target :=
  table.foldlM (fun t r ↦ r.groups.foldlM (fun t g ↦ addOneGroup g (-1) t) t) t

/-- `support/scripts/mkusers:406-413`. -/
def addExplicitUsers (env : Env) (table : List Row) (t : Target) :
    Except (Failure × Target) Target :=
  table.foldlM (fun t r ↦
    match r.username with
    | none => pure t
    | some username => if 0 ≤ r.uid then addOneUser env username r t else pure t) t

/-- `support/scripts/mkusers:415-422`. -/
def addAutomaticUsers (env : Env) (table : List Row) (t : Target) :
    Except (Failure × Target) Target :=
  table.foldlM (fun t r ↦
    match r.username with
    | none => pure t
    | some username => if r.uid = -1 then addOneUser env username r t else pure t) t

/-- `support/scripts/mkusers:359-423`. -/
def main (env : Env) (table : List Row) (t : Target) : Except (Failure × Target) Target := do
  let t ← addExplicitGroups table t
  let t ← addAutomaticGroups table t
  let t ← addAdditionalGroups table t
  let t ← addExplicitUsers env table t
  addAutomaticUsers env table t

/-! ### A small table -/

/-- An environment in which a password is its own encoding and every home can be made. -/
def plainEnv : Env := ⟨some, fun _ ↦ true⟩

/-- Files with one group. -/
def audioFiles : Target := ⟨[], [], [⟨"audio", "x", 29, .empty, by decide⟩], none, []⟩

/-- A row with a user and a group, both with automatic ids. -/
def serviceRow : Row :=
  ⟨some ⟨"svc", by decide⟩, -1, ⟨"svc", by decide⟩, -1, "*", "/srv", "-",
    [⟨"audio", by decide⟩], "service"⟩

/-- A row whose uid is neither a uid nor the mark of an automatic one. -/
def skippedRow : Row :=
  ⟨some ⟨"svc", by decide⟩, -5, ⟨"svc", by decide⟩, -1, "*", "-", "-", [], "service"⟩

/-- The new user becomes a member of the group that was there, with the first free uid. -/
example : ((main plainEnv [serviceRow] audioFiles).toOption.map fun t ↦
    (t.passwd.map PasswdLine.uid, t.group.map fun l ↦ (l.name, l.gid, l.members.items))) =
      some ([1000], [("svc", 1000, [""]), ("audio", 29, ["svc"])]) := by decide +kernel

end MotionPie.Support.MkUsers
