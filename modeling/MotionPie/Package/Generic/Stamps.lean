import MotionPie.Make.Engine

/-!
# The stamps of a generic package

`package/pkg-generic.mk` builds every package in steps, each of which leaves a stamp in the
build directory. The rules between the stamps depend on the variables of the package, and
the `-rebuild`, `-reinstall`, `-reconfigure` and `-dirclean` targets delete stamps first.
The dependencies on other packages are order-only, so that they appear only as commands that
may fail before a step of this one.
-/

namespace MotionPie.Package.Generic

open Make

/-- The stamp files, `package/pkg-generic.mk:463-474`. -/
inductive Stamp
  | downloaded
  | extracted
  | patched
  | rsynced
  | configured
  | built
  | hostInstalled
  | stagingInstalled
  | imagesInstalled
  | targetInstalled
  deriving DecidableEq

/-- The variables of a package that choose its rules: `TYPE`, `OVERRIDE_SRCDIR` and the
`INSTALL` variables. -/
structure Pkg where
  host : Bool
  overridden : Bool
  installStaging : Bool
  installImages : Bool
  installTarget : Bool
  deriving DecidableEq

namespace Pkg

variable (pkg : Pkg)

/-- Normal prerequisites, `package/pkg-generic.mk:514-572`. -/
def normal : Stamp → List Stamp
  | .downloaded | .rsynced => []
  | .extracted => if pkg.overridden then [] else [.downloaded]
  | .patched => if pkg.overridden then [] else [.extracted]
  | .configured => if pkg.overridden then [] else [.patched]
  | .built => [.configured]
  | .hostInstalled => [.built]
  | .stagingInstalled => if pkg.installStaging then [.built] else []
  | .imagesInstalled => if pkg.installImages then [.built] else []
  | .targetInstalled =>
    (if pkg.installTarget then [.built] else []) ++
      if pkg.installStaging then [.stagingInstalled] else []

/-- Order-only prerequisites: the rsync of an overridden source,
`package/pkg-generic.mk:591-593`. -/
def orderOnly : Stamp → List Stamp
  | .configured => if pkg.overridden then [.rsynced] else []
  | _ => []

end Pkg

/-- The position of a step. -/
def Stamp.rank : Stamp → Nat
  | .downloaded | .rsynced => 0
  | .extracted => 1
  | .patched => 2
  | .configured => 3
  | .built => 4
  | .hostInstalled | .stagingInstalled | .imagesInstalled => 5
  | .targetInstalled => 6

namespace Pkg

variable (pkg : Pkg)

/-- The rules of the package. -/
def rules : Rules Stamp where
  normal := pkg.normal
  orderOnly := pkg.orderOnly
  rank := Stamp.rank
  rank_lt t p hp := by
    revert p
    cases t <;> simp only [normal, orderOnly] <;> (repeat' split) <;> decide

/-- The stamps that the target `<pkg>` is made from, `package/pkg-generic.mk:506-536`. -/
def installs : List Stamp :=
  if pkg.host then [.hostInstalled]
  else (if pkg.installStaging then [.stagingInstalled] else []) ++
    (if pkg.installTarget then [.targetInstalled] else []) ++
      if pkg.installImages then [.imagesInstalled] else []

/-- `<pkg>-clean-for-reinstall`. -/
def cleanForReinstall : List Stamp :=
  (if pkg.overridden then [.rsynced] else []) ++
    [.stagingInstalled, .targetInstalled, .imagesInstalled, .hostInstalled]

/-- `<pkg>-clean-for-rebuild`. -/
def cleanForRebuild : List Stamp := pkg.cleanForReinstall ++ [.built]

/-- `<pkg>-clean-for-reconfigure`. -/
def cleanForReconfigure : List Stamp := pkg.cleanForRebuild ++ [.configured]

end Pkg

/-- What make is asked for. -/
inductive Target
  | package
  | rebuild
  | reinstall
  | reconfigure
  | dirclean
  deriving DecidableEq

section Commands

variable (pkg : Pkg) (o : Nat → Outcome Stamp)

/-- `rm -f` of one stamp. -/
def rmStamp (s : Disk Stamp) (t : Stamp) : Except (Disk Stamp) (Disk Stamp) :=
  match o s.clock with
  | .ok => .ok (s.remove (· = t))
  | .fail changed => .error (s.remove fun u ↦ u = t && changed u)
  | .stop => .error s.tick

/-- `rm -Rf` of the build directory. -/
def rmDir (s : Disk Stamp) : Except (Disk Stamp) (Disk Stamp) :=
  match o s.clock with
  | .ok => .ok (s.remove fun _ ↦ true)
  | .fail changed => .error (s.remove changed)
  | .stop => .error s.tick

/-- What a target deletes before it makes anything, `package/pkg-generic.mk:638-657`. -/
def Target.clean : Target → Disk Stamp → Except (Disk Stamp) (Disk Stamp)
  | .package => .ok
  | .rebuild => pkg.cleanForRebuild.foldlM (rmStamp o)
  | .reinstall => pkg.cleanForReinstall.foldlM (rmStamp o)
  | .reconfigure => pkg.cleanForReconfigure.foldlM (rmStamp o)
  | .dirclean => rmDir o

/-- What a target makes after that. -/
def Target.goals : Target → List Stamp
  | .dirclean => []
  | _ => pkg.installs

/-- What a run leaves behind, whether it succeeds or not. -/
def left {σ : Type} : Except σ σ → σ
  | .ok s | .error s => s

/-- One run of make. -/
def Target.run (c : Target) (s : Disk Stamp) : Except (Disk Stamp) (Disk Stamp) :=
  match c.clean pkg o s with
  | .ok s₁ =>
    match make pkg.rules o (c.goals pkg) s₁ with
    | .ok s' => .ok s'.toDisk
    | .error s' => .error s'.toDisk
  | .error s₁ => .error s₁

/-- One run after the other, whatever their ends. -/
def step (s : Disk Stamp) (c : Target) : Option (Disk Stamp) := some (left (c.run pkg o s))

end Commands

end MotionPie.Package.Generic
