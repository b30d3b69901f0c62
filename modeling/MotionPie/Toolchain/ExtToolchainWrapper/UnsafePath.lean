import MotionPie.Base.FileTree
import MotionPie.Base.Loop

/-!
# Unsafe paths in the arguments of the wrapper

`toolchain/toolchain-external/ext-toolchain-wrapper.c:74-91,199-226`: what the options `-I` and
`-L` apply to is compared with the start of five directory names. In paranoid mode the first
match ends the wrapper.
-/

namespace MotionPie.Toolchain.ExtToolchainWrapper

open Base

/-- `unsafe_paths`, `ext-toolchain-wrapper.c:77-79`. -/
def unsafePaths : List Bytes :=
  [str "/lib", str "/usr/include", str "/usr/lib", str "/usr/local/include", str "/usr/local/lib"]

/-- What is printed for a path, `ext-toolchain-wrapper.c:83-85`. -/
def unsafeMessage (program path : Bytes) (paranoid : Bool) : Bytes :=
  program ++ str ": " ++ (if paranoid then str "ERROR" else str "WARNING") ++
    str ": unsafe header/library path used in cross-compilation: '" ++ path ++ str "'\n"

/-- `check_unsafe_path`, `ext-toolchain-wrapper.c:74-91`, from what was printed before to what is
printed after; the error is `exit(1)`. -/
def checkUnsafePath (program : Bytes) (paranoid : Bool) (stderr : List Bytes) (path : Bytes) :
    Except (List Bytes) (List Bytes) :=
  unsafePaths.foldlM (fun stderr c ↦
    if c.isPrefixOf path then
      let stderr := stderr ++ [unsafeMessage program path paranoid]
      if paranoid then .error stderr else .ok stderr
    else .ok stderr) stderr

/-- The argument starts with `-I` or `-L`. -/
def isPathOption (a : Bytes) : Bool := (str "-I").isPrefixOf a || (str "-L").isPrefixOf a

/-- The loop over the arguments behind `argv[0]`, `ext-toolchain-wrapper.c:206-226`. -/
def checkArguments (program : Bytes) (paranoid : Bool) :
    List Bytes → List Bytes → Except (List Bytes) (List Bytes)
  | [], stderr => .ok stderr
  | a :: rest, stderr =>
    if isPathOption a = false then checkArguments program paranoid rest stderr
    else if a.drop 2 = [] then
      match rest with
      | [] => .ok stderr
      | path :: rest =>
        checkUnsafePath program paranoid stderr path >>= checkArguments program paranoid rest
    else checkUnsafePath program paranoid stderr (a.drop 2) >>= checkArguments program paranoid rest

/-- The wrapper gives up in paranoid mode. -/
def Aborts (program : Bytes) (user : List Bytes) : Prop :=
  (checkArguments program true user []).isOk = false

/-! ### What is checked -/

/-- What the options `-I` and `-L` apply to: the rest of the argument or the next one, which is
no option then. -/
def operands : List Bytes → List Bytes
  | [] => []
  | a :: rest =>
    if isPathOption a = false then operands rest
    else if a.drop 2 = [] then
      match rest with
      | [] => []
      | path :: rest => path :: operands rest
    else a.drop 2 :: operands rest

/-- The text of a listed directory is the start of the path. -/
def StartsUnsafe (path : Bytes) : Prop := ∃ u ∈ unsafePaths, u <+: path

instance : DecidablePred StartsUnsafe :=
  fun path ↦ inferInstanceAs (Decidable (∃ u ∈ unsafePaths, u <+: path))

/-- The loop checks the operands one after the other. -/
theorem checkArguments_eq (program : Bytes) (paranoid : Bool) (user stderr : List Bytes) :
    checkArguments program paranoid user stderr =
      (operands user).foldlM (checkUnsafePath program paranoid) stderr := by
  induction user using operands.induct generalizing stderr with
  | case1 => rfl
  | case2 a rest h ih =>
    unfold checkArguments operands
    rw [if_pos h, if_pos h, ih]
  | case3 a h hempty =>
    unfold checkArguments operands
    rw [if_neg h, if_neg h, if_pos hempty, if_pos hempty]
    rfl
  | case4 a h hempty path rest ih =>
    unfold checkArguments operands
    rw [if_neg h, if_neg h, if_pos hempty, if_pos hempty]
    exact bind_congr ih
  | case5 a rest h hempty ih =>
    unfold checkArguments operands
    rw [if_neg h, if_neg h, if_neg hempty, if_neg hempty]
    exact bind_congr ih

/-- A path is let through in paranoid mode unless it starts like a listed directory. -/
theorem checkUnsafePath_paranoid (program : Bytes) (stderr : List Bytes) (path : Bytes) :
    checkUnsafePath program true stderr path =
      if StartsUnsafe path then .error (stderr ++ [unsafeMessage program path true])
      else .ok stderr := by
  have hloop : ∀ us : List Bytes, us.foldlM (fun stderr c ↦
      if c.isPrefixOf path then
        let stderr := stderr ++ [unsafeMessage program path true]
        if true then .error stderr else .ok stderr
      else .ok stderr) stderr = if ∃ u ∈ us, u <+: path then
        Except.error (stderr ++ [unsafeMessage program path true]) else .ok stderr := by
    intro us
    induction us with
    | nil => simp; rfl
    | cons u us ih =>
      rw [List.foldlM_cons]
      by_cases hu : u <+: path
      · have hany : ∃ c ∈ u :: us, c <+: path := ⟨u, List.mem_cons_self, hu⟩
        rw [if_pos (List.isPrefixOf_iff_prefix.mpr hu), if_pos hany]
        rfl
      · have hany : (∃ c ∈ u :: us, c <+: path) ↔ ∃ c ∈ us, c <+: path := by simp [hu]
        rw [if_neg fun h ↦ hu (List.isPrefixOf_iff_prefix.mp h)]
        simp only [hany]
        exact ih
  exact hloop unsafePaths

/-- Without paranoid mode the wrapper warns and goes on. -/
theorem checkArguments_warns (program : Bytes) (user stderr : List Bytes) :
    ∃ warned, checkArguments program false user stderr = .ok warned := by
  have hpath : ∀ path stderr, ∃ warned,
      checkUnsafePath program false stderr path = .ok warned ∧ True := by
    intro path stderr
    refine foldlM_total (fun _ _ ↦ True) trivial fun pre u post stderr' _ _ ↦ ?_
    by_cases hu : u.isPrefixOf path = true
    · exact ⟨stderr' ++ [unsafeMessage program path false], by simp [hu], trivial⟩
    · exact ⟨stderr', by simp [hu], trivial⟩
  have hall : ∃ warned, (operands user).foldlM (checkUnsafePath program false) stderr =
      .ok warned ∧ True :=
    foldlM_total (fun _ _ ↦ True) trivial fun _ path _ stderr' _ _ ↦ hpath path stderr'
  obtain ⟨warned, hwarned, -⟩ := hall
  exact ⟨warned, (checkArguments_eq ..).trans hwarned⟩

/-- In paranoid mode the wrapper gives up exactly when an operand starts like a listed
directory. -/
theorem paranoid_aborts_iff (program : Bytes) (user : List Bytes) :
    Aborts program user ↔ ∃ path ∈ operands user, StartsUnsafe path := by
  have hloop : ∀ (paths stderr : List Bytes),
      (paths.foldlM (checkUnsafePath program true) stderr).isOk = false ↔
        ∃ path ∈ paths, StartsUnsafe path := by
    intro paths
    induction paths with
    | nil => intro stderr; simp; rfl
    | cons path paths ih =>
      intro stderr
      rw [List.foldlM_cons, checkUnsafePath_paranoid]
      by_cases hpath : StartsUnsafe path
      · rw [if_pos hpath]
        exact iff_of_true rfl ⟨path, List.mem_cons_self, hpath⟩
      · have hexists : (∃ p ∈ path :: paths, StartsUnsafe p) ↔ ∃ p ∈ paths, StartsUnsafe p := by
          simp [hpath]
        rw [if_neg hpath, hexists]
        exact ih stderr
  rw [Aborts, checkArguments_eq]
  exact hloop _ _

/-! ### Texts and directories -/

/-- The names that an absolute path goes through when nothing on it is a link, the innermost one
first. -/
def normalPlace (path : Bytes) : Place :=
  (components path).foldl (fun p c ↦
    if c = [] ∨ c = str "." then p else if c = str ".." then p.tail else c :: p) []

/-- The path names a listed directory or something beneath one. -/
def NamesUnsafe (path : Bytes) : Prop :=
  isAbsolute path ∧ ∃ u ∈ unsafePaths, normalPlace u <:+ normalPlace path

instance : DecidablePred NamesUnsafe := fun path ↦
  inferInstanceAs (Decidable (_ ∧ ∃ u ∈ unsafePaths, normalPlace u <:+ normalPlace path))

/-- The comparison of texts rejects `/library`, which only starts like `/lib`, and lets another
spelling of `/usr/lib` through. -/
theorem aborts_not_names :
    ¬ (Aborts (str "gcc") [str "-I/library"] ↔
        ∃ path ∈ operands [str "-I/library"], NamesUnsafe path) ∧
      ¬ (Aborts (str "gcc") [str "-L", str "/usr/../usr/lib"] ↔
        ∃ path ∈ operands [str "-L", str "/usr/../usr/lib"], NamesUnsafe path) := by
  unfold Aborts
  decide +kernel

end MotionPie.Toolchain.ExtToolchainWrapper
