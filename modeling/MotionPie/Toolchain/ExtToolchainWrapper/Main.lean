import MotionPie.Toolchain.ExtToolchainWrapper.BaseDir
import MotionPie.Toolchain.ExtToolchainWrapper.UnsafePath

/-!
# The arguments that the wrapper hands on

`toolchain/toolchain-external/ext-toolchain-wrapper.c`: the array for the compiler is allocated
before it is known which of the optional arguments are added, and filled through a pointer. The
array never overflows, and what is handed to `execv` is made of the predefined arguments, the
configured options that the user has not overridden and the arguments of the user.
-/

namespace MotionPie.Toolchain.ExtToolchainWrapper

open Base FileTree

universe u v

/-! ### The build configuration -/

/-- The macros that the wrapper is built with; `none` and `false` stand for an undefined one. -/
structure Config where
  /-- `BR_CROSS_PATH_REL`, or `BR_CROSS_PATH_ABS`. -/
  crossPath : Bytes ⊕ Bytes
  sysroot : Bytes
  abi : Option Bytes
  fpu : Option Bytes
  softfloat : Bool
  mode : Option Bytes
  is64 : Bool
  binfmtFlat : Bool
  mipsTargetLittleEndian : Bool
  mipsTargetBigEndian : Bool
  arcTargetBigEndian : Bool
  additionalCflags : List Bytes
  floatAbi : Option Bytes
  arch : Option Bytes
  cpu : Option Bytes

/-- An argument that stands in the array when its macro is defined. -/
def given (b : Bool) (a : Bytes) : List Bytes := if b then [a] else []

/-- An argument with the text of its macro. -/
def valued (a : Bytes) (value : Option Bytes) : List Bytes := (value.map (a ++ ·)).toList

/-- `predef_args`, `ext-toolchain-wrapper.c:42-72`. -/
def Config.predefArgs (c : Config) (path sysroot : Bytes) : List Bytes :=
  [path, str "--sysroot", sysroot] ++
    valued (str "-mabi=") c.abi ++
    valued (str "-mfpu=") c.fpu ++
    given c.softfloat (str "-msoft-float") ++
    valued (str "-m") c.mode ++
    given c.is64 (str "-m64") ++
    given c.binfmtFlat (str "-Wl,-elf2flt") ++
    given c.mipsTargetLittleEndian (str "-EL") ++
    given (c.mipsTargetBigEndian || c.arcTargetBigEndian) (str "-EB") ++
    c.additionalCflags

/-- `EXCLUSIVE_ARGS`. -/
def exclusiveArgs : ℕ := 3

/-! ### The array -/

/-- An array of pointers with room for `size` of them, written from the start; `none` is `NULL`. -/
structure Args (size : ℕ) where
  written : List (Option Bytes)
  fits : written.length ≤ size

variable {size : ℕ}

/-- `malloc`. -/
def Args.empty : Args size := ⟨[], Nat.zero_le size⟩

/-- `*cur++ = a`: nothing when `cur` stands behind the array. -/
def Args.put (args : Args size) (a : Option Bytes) : Option (Args size) :=
  if h : args.written.length < size then
    some ⟨args.written ++ [a], by rw [List.length_append]; exact h⟩
  else none

/-- `memcpy` and the step of `cur` behind it. -/
def Args.copy (args : Args size) (as : List Bytes) : Option (Args size) :=
  as.foldlM (fun args a ↦ args.put (some a)) args

/-- An argument of the user that sets the float options, `ext-toolchain-wrapper.c:169-174`. -/
def setsFloat (a : Bytes) : Bool :=
  (str "-mfloat-abi=").isPrefixOf a || a == str "-msoft-float" || a == str "-mhard-float"

/-- An argument of the user that sets the target, `ext-toolchain-wrapper.c:185-190`. -/
def setsTarget (a : Bytes) : Bool :=
  (str "-march=").isPrefixOf a || (str "-mtune=").isPrefixOf a || (str "-mcpu=").isPrefixOf a

/-- `argc`, with the arguments behind `argv[0]`. -/
def argc (user : List Bytes) : ℕ := user.length + 1

/-- Where a loop over `argv[1]`, `argv[2]`, … breaks. -/
def breaksAt (p : Bytes → Bool) (user : List Bytes) : ℕ := user.findIdx p + 1

/-- The room that is allocated, `ext-toolchain-wrapper.c:154-155`. -/
def Config.allocated (c : Config) (path sysroot : Bytes) (user : List Bytes) : ℕ :=
  (c.predefArgs path sysroot).length + (argc user + exclusiveArgs)

/-- The float option, `ext-toolchain-wrapper.c:167-179`. -/
def Config.addFloatAbi (c : Config) (user : List Bytes) (args : Args size) :
    Option (Args size) :=
  match c.floatAbi with
  | some floatAbi =>
    if breaksAt setsFloat user = argc user then args.put (some (str "-mfloat-abi=" ++ floatAbi))
    else some args
  | none => some args

/-- The target options, `ext-toolchain-wrapper.c:181-201`. -/
def Config.addTarget (c : Config) (user : List Bytes) (args : Args size) : Option (Args size) :=
  if (c.arch.isSome || c.cpu.isSome) && breaksAt setsTarget user = argc user then do
    let args ← args.copy (valued (str "-march=") c.arch)
    args.copy (valued (str "-mcpu=") c.cpu)
  else some args

/-- The array before the arguments of the user, `ext-toolchain-wrapper.c:154-201`. -/
def Config.fill (c : Config) (path sysroot : Bytes) (user : List Bytes) :
    Option (Args (c.allocated path sysroot user)) := do
  let args ← Args.empty.copy (c.predefArgs path sysroot)
  let args ← c.addFloatAbi user args
  c.addTarget user args

/-- The arguments of the user and the end, `ext-toolchain-wrapper.c:228-233`. -/
def Args.finish (args : Args size) (user : List Bytes) : Option (Args size) := do
  let args ← args.copy user
  args.put none

/-! ### The program -/

/-- How the wrapper ends. -/
inductive Outcome
  | exit (status : ℕ)
  | execv (path : Bytes) (args : List (Option Bytes))
  /-- A write behind the array. -/
  | overrun

variable {δ : Type u} {φ : Type v}

/-- `path`, `ext-toolchain-wrapper.c:138-143`. -/
def Config.path (c : Config) (absbasedir basename : Bytes) : Bytes :=
  match c.crossPath with
  | .inl rel => absbasedir ++ str "/" ++ rel ++ str "/" ++ basename
  | .inr abs => abs ++ str "/" ++ basename

/-- `basename`, `ext-toolchain-wrapper.c:105-119`. -/
def basename (argv0 : Bytes) : Bytes := ((strrchr argv0).map Prod.snd).getD argv0

/-- `main`, `ext-toolchain-wrapper.c:93-260`, without the trace that is printed on demand;
`paranoid` is the value of `BR_COMPILER_PARANOID_UNSAFE_PATH`. -/
def main (c : Config) (t : FileTree δ φ) (links : ℕ) (cwd : Place) (exe : Bytes)
    (paranoid : Option Bytes) (argv0 : Bytes) (user : List Bytes) : Outcome :=
  match absbasedir t links cwd exe argv0 with
  | none => .exit 2
  | some absbasedir =>
    let path := c.path absbasedir (basename argv0)
    let sysroot := absbasedir ++ str "/" ++ c.sysroot
    if pathMax ≤ path.length then .exit 3
    else if pathMax ≤ sysroot.length then .exit 3
    else match c.fill path sysroot user with
      | none => .overrun
      | some args =>
        match checkArguments (basename argv0) (paranoid.any (· ≠ [])) user [] with
        | .error _ => .exit 1
        | .ok _ =>
          match args.finish user with
          | none => .overrun
          | some args => .execv path args.written

/-! ### What is written -/

/-- A write with room left. -/
theorem Args.put_of_lt (args : Args size) (a : Option Bytes) (h : args.written.length < size) :
    ∃ args', args.put a = some args' ∧ args'.written = args.written ++ [a] := by
  rw [Args.put, dif_pos h]
  exact ⟨_, rfl, rfl⟩

/-- A copy that fits. -/
theorem Args.copy_of_le (args : Args size) (as : List Bytes)
    (h : args.written.length + as.length ≤ size) :
    ∃ args', args.copy as = some args' ∧ args'.written = args.written ++ as.map some := by
  induction as generalizing args with
  | nil => exact ⟨args, rfl, by simp⟩
  | cons a as ih =>
    rw [List.length_cons] at h
    obtain ⟨args₁, hput, hwritten⟩ := Args.put_of_lt args (some a) (by omega)
    obtain ⟨args₂, hcopy, hrest⟩ := ih args₁ (by rw [hwritten, List.length_append]; simp; omega)
    refine ⟨args₂, ?_, by rw [hrest, hwritten]; simp⟩
    rw [Args.copy, List.foldlM_cons, hput]
    exact hcopy

/-- The loop runs to its end when no argument is of the kind. -/
theorem breaksAt_eq_argc {p : Bytes → Bool} {user : List Bytes} :
    breaksAt p user = argc user ↔ ¬ ∃ a ∈ user, p a = true := by
  rw [breaksAt, argc, Nat.add_right_cancel_iff, List.findIdx_eq_length]
  simp

/-- The `-mfloat-abi` that is added. -/
def Config.floatArgs (c : Config) (user : List Bytes) : List Bytes :=
  if ∃ a ∈ user, setsFloat a = true then [] else valued (str "-mfloat-abi=") c.floatAbi

/-- The `-march` and `-mcpu` that are added. -/
def Config.targetArgs (c : Config) (user : List Bytes) : List Bytes :=
  if ∃ a ∈ user, setsTarget a = true then []
  else valued (str "-march=") c.arch ++ valued (str "-mcpu=") c.cpu

/-- A macro gives one argument at most. -/
theorem length_valued_le (a : Bytes) (value : Option Bytes) : (valued a value).length ≤ 1 := by
  cases value <;> simp [valued]

/-- What is added never needs more than the room for exclusive arguments. -/
theorem length_added_le (c : Config) (user : List Bytes) :
    (c.floatArgs user ++ c.targetArgs user).length ≤ exclusiveArgs := by
  have hfloat := length_valued_le (str "-mfloat-abi=") c.floatAbi
  have harch := length_valued_le (str "-march=") c.arch
  have hcpu := length_valued_le (str "-mcpu=") c.cpu
  unfold Config.floatArgs Config.targetArgs exclusiveArgs
  split <;> split <;> simp only [List.length_append, List.length_nil] <;> omega

/-- Two copies are one. -/
theorem Args.copy_append (args : Args size) (as bs : List Bytes) :
    args.copy (as ++ bs) = args.copy as >>= fun args ↦ args.copy bs := List.foldlM_append

/-- The float option is a copy of what is to be added. -/
theorem Config.addFloatAbi_eq (c : Config) (user : List Bytes) (args : Args size) :
    c.addFloatAbi user args = args.copy (c.floatArgs user) := by
  unfold Config.addFloatAbi Config.floatArgs
  simp only [breaksAt_eq_argc]
  cases c.floatAbi with
  | none =>
    have hnone : valued (str "-mfloat-abi=") none = [] := rfl
    rw [hnone, ite_self]
    rfl
  | some floatAbi =>
    by_cases hset : ∃ a ∈ user, setsFloat a = true
    · simp only [hset, not_true, if_false, if_true]
      rfl
    · simp only [hset, not_false_eq_true, if_true, if_false]
      exact (bind_pure (m := Option) _).symm

/-- The target options are a copy of what is to be added. -/
theorem Config.addTarget_eq (c : Config) (user : List Bytes) (args : Args size) :
    c.addTarget user args = args.copy (c.targetArgs user) := by
  unfold Config.addTarget Config.targetArgs
  simp only [breaksAt_eq_argc]
  by_cases hset : ∃ a ∈ user, setsTarget a = true
  · simp only [hset, not_true, decide_false, Bool.and_false, if_true]
    rfl
  · simp only [hset, not_false_eq_true, decide_true, Bool.and_true, if_false, Args.copy_append]
    cases harch : c.arch <;> cases hcpu : c.cpu <;> rfl

/-- The array before the arguments of the user. -/
theorem Config.fill_eq (c : Config) (path sysroot : Bytes) (user : List Bytes) :
    c.fill path sysroot user =
      Args.empty.copy (c.predefArgs path sysroot ++ (c.floatArgs user ++ c.targetArgs user)) := by
  rw [Args.copy_append, Config.fill]
  simp only [Config.addFloatAbi_eq, Config.addTarget_eq, Args.copy_append]

/-- The vector for the compiler. -/
def Config.vector (c : Config) (path sysroot : Bytes) (user : List Bytes) : List Bytes :=
  c.predefArgs path sysroot ++ (c.floatArgs user ++ c.targetArgs user) ++ user

/-- The array is filled without an overrun, also when the arguments of the user and the end come
after it. -/
theorem Config.finish_fill (c : Config) (path sysroot : Bytes) (user : List Bytes) :
    ∃ args, c.fill path sysroot user = some args ∧
      ∃ all, args.finish user = some all ∧
        all.written = (c.vector path sysroot user).map some ++ [none] := by
  have hadded := length_added_le c user
  have hroom : c.allocated path sysroot user =
      (c.predefArgs path sysroot).length + (user.length + 1 + exclusiveArgs) := rfl
  have hfits : (Args.empty : Args (c.allocated path sysroot user)).written.length +
      (c.predefArgs path sysroot ++ (c.floatArgs user ++ c.targetArgs user)).length ≤
        c.allocated path sysroot user := by
    rw [List.length_append, hroom]
    simp only [Args.empty, List.length_nil]
    omega
  obtain ⟨args, hfill, hwritten⟩ := Args.copy_of_le _ _ hfits
  have hlen : args.written.length = (c.predefArgs path sysroot).length +
      (c.floatArgs user ++ c.targetArgs user).length := by
    rw [hwritten]
    simp [Args.empty]
  obtain ⟨args₁, hcopy, hwritten₁⟩ := args.copy_of_le user (by omega)
  have hlen₁ : args₁.written.length = args.written.length + user.length := by
    rw [hwritten₁, List.length_append, List.length_map]
  obtain ⟨all, hput, hall⟩ := args₁.put_of_lt none (by omega)
  refine ⟨args, (c.fill_eq path sysroot user).trans hfill, all, ?_, ?_⟩
  · rw [Args.finish, hcopy]
    exact hput
  · rw [hall, hwritten₁, hwritten]
    simp [Config.vector, Args.empty]

/-- For every configuration and all arguments of the user the array is large enough, and a wrapper
that does not give up before hands to `execv` the predefined arguments, the configured options that
the user has not overridden, the arguments of the user and `NULL`. -/
theorem main_execv (c : Config) (t : FileTree δ φ) (links : ℕ) (cwd : Place) (exe : Bytes)
    (paranoid : Option Bytes) (argv0 : Bytes) (user : List Bytes) :
    (∃ status ∈ [1, 2, 3], main c t links cwd exe paranoid argv0 user = .exit status) ∨
      ∃ dir path sysroot args, absbasedir t links cwd exe argv0 = some dir ∧
        path = c.path dir (basename argv0) ∧ sysroot = dir ++ str "/" ++ c.sysroot ∧
        main c t links cwd exe paranoid argv0 user = .execv path args ∧
        args = (c.predefArgs path sysroot ++
          ((if ∃ a ∈ user, setsFloat a = true then []
            else valued (str "-mfloat-abi=") c.floatAbi) ++
          (if ∃ a ∈ user, setsTarget a = true then []
            else valued (str "-march=") c.arch ++ valued (str "-mcpu=") c.cpu)) ++
          user).map some ++ [none] ∧
        args.length ≤ c.allocated path sysroot user := by
  unfold main
  cases hbase : absbasedir t links cwd exe argv0 with
  | none => exact .inl ⟨2, by decide, rfl⟩
  | some dir =>
    dsimp only
    obtain ⟨args, hfill, all, hfinish, hall⟩ := c.finish_fill
      (c.path dir (basename argv0)) (dir ++ str "/" ++ c.sysroot) user
    rw [hfill]
    split
    · exact .inl ⟨3, by decide, rfl⟩
    split
    · exact .inl ⟨3, by decide, rfl⟩
    dsimp only
    split
    · exact .inl ⟨1, by decide, rfl⟩
    rw [hfinish]
    exact .inr ⟨dir, _, _, all.written, rfl, rfl, rfl, rfl, hall, all.fits⟩

end MotionPie.Toolchain.ExtToolchainWrapper
