import MotionPie.Base.Text

/-!
# The log of build steps

The hook `step_time` of `package/pkg-generic.mk`, which writes a line whenever a step of a package
starts or ends, and the steps that call it.
-/

namespace MotionPie.Package.Generic

open Base

/-- The first argument of a hook. -/
inductive StepState
  | start
  | finish
  deriving DecidableEq

/-- The steps that call `step_start` and `step_end`, `package/pkg-generic.mk:88-250`. -/
inductive HookedStep
  | extract
  | patch
  | configure
  | build
  | installHost
  | installStaging
  | installImage
  | installTarget
  deriving DecidableEq

/-- The text of the argument. -/
def StepState.text : StepState → Bytes
  | start => str "start"
  | finish => str "end"

/-- The name with which a step calls its hooks. -/
def HookedStep.name : HookedStep → Bytes
  | extract => str "extract"
  | patch => str "patch"
  | configure => str "configure"
  | build => str "build"
  | installHost => str "install-host"
  | installStaging => str "install-staging"
  | installImage => str "install-image"
  | installTarget => str "install-target"

/-- A call of the hook, at the time that `date +%s` prints. -/
structure StepEvent where
  time : Int
  state : StepState
  step : HookedStep
  pkg : Bytes
  deriving DecidableEq

/-- `%-n.ns` of `printf`. -/
def column (n : Nat) (s : Bytes) : Bytes := (s.take n).rightpad n 32

/-- The line that `step_time` writes, `package/pkg-generic.mk:51-55`. -/
def stepTime (e : StepEvent) : Bytes :=
  showInt e.time ++ 58 :: (column 5 e.state.text ++ 58 :: (column 20 e.step.name ++
    58 :: 32 :: e.pkg))

/-- `build-time.log`. -/
def buildTimeLog (es : List StepEvent) : Bytes := unlines (es.map stepTime)

/-- A package name: it has no space, and nothing that a table with colons reads in its own way. -/
def IsPackageName (pkg : Bytes) : Prop :=
  ∀ b ∈ pkg, isSpace b = false ∧ b ≠ 58 ∧ b ≠ 34 ∧ b ≠ 0

end MotionPie.Package.Generic
