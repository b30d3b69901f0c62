import MotionPie.Base.Text

/-!
# The firmware update

`package/motioneye/update.py` downloads an image, cuts it into partitions and overwrites the
boot partition. Every external command is a function on the system that succeeds or not;
`Commands` says how each of them ends in a run. The kernel's file system is a parameter. The
system has one boot partition, as the kernel sees it, and the older contents of it that may
still be on the device.
-/

namespace MotionPie.Package.Motioneye

open Base

/-- The file system driver of the boot partition: the files that a partition holds, and the
partition after `config.txt` has been written. -/
structure FileSystem where
  files : Bytes → String → Option Bytes
  write : Bytes → Bytes → Bytes
  files_write : ∀ boot x,
    files (write boot x) = Function.update (files boot) "config.txt" (some x)

/-- The contents of `/data/.firmware_update`. -/
structure DownloadDir where
  gz : Option Bytes
  image : Option Bytes
  bootImg : Option Bytes
  rootImg : Option Bytes

/-- What outlives a command. A content in `unsynced` may be on the device in place of
`boot`. -/
structure System where
  boot : Bytes
  unsynced : List Bytes
  mounted : Bool
  tmpConfig : Option Bytes
  downloadDir : Option DownloadDir
  errors : List String

/-- The end of the reboot: a hard reboot keeps the first contents of `unsynced` only. -/
inductive Reboot
  | ok
  | hard (synced : Nat)
  | denied

/-- How the commands of a run end. A number says after how many bytes a command fails. -/
structure Commands where
  rmtree : Bool
  makedirs : Bool
  wget : Bytes × Bool
  gunzip : Option Bytes
  fdisk : Option Bytes
  extractBoot : Option Nat
  extractRoot : Option Nat
  backup : Option Nat
  umount : Bool
  install : Option Nat
  mount : Bool
  restore : Option (Option Nat)
  read : Bool
  rewrite : Option (Option Nat)
  reboot : Reboot

/-- The step at which a run stops. -/
inductive Failure
  | makedirs
  | wget
  | gunzip
  | partitionTable
  | extractBoot
  | extractRoot
  | backup
  | unmount
  | install
  | mount
  | restore
  | read
  | rewrite
  | hardReboot
  deriving DecidableEq

/-- What is logged, up to the text of an exception. -/
def Failure.text : Failure → String
  | .makedirs | .wget => "could not download update: "
  | .gunzip => "could not decompress archive: "
  | .partitionTable => "could not read partition table: "
  | .extractBoot => "could not extract boot.img: "
  | .extractRoot => "could not extract root.img: "
  | .backup => "failed to backup /boot/config.txt"
  | .unmount => "failed to unmount boot partition"
  | .install => "could not install boot image: "
  | .mount => "failed to mount boot partition"
  | .restore => "failed to restore /boot/config.txt"
  | .read => "failed to read /boot/config.txt: "
  | .rewrite => "failed to write /boot/config.txt: "
  | .hardReboot => "failed to reboot"

/-- A part of an update. An exception leaves the system as it is. -/
abbrev Update := EStateM Failure System

/-- Log the failure and raise. -/
def fail {α : Type} (e : Failure) : Update α := fun s ↦
  .error e { s with errors := s.errors ++ [e.text] }

/-- Run a command; raise when it does not succeed. -/
def call (e : Failure) (command : System → Bool × System) : Update Unit := fun s ↦
  match command s with
  | (true, s') => .ok () s'
  | (false, s') => fail e s'

/-! ### download -/

/-- `boot.img`. -/
def System.bootImg (s : System) : Option Bytes := s.downloadDir.bind (·.bootImg)

/-- `root.img`. -/
def System.rootImg (s : System) : Option Bytes := s.downloadDir.bind (·.rootImg)

/-- Change a file of the download directory. -/
def System.edit (s : System) (f : DownloadDir → DownloadDir) : System :=
  { s with downloadDir := s.downloadDir.map f }

/-- `shutil.rmtree(_DOWNLOAD_DIR, ignore_errors=True)`. -/
def rmtree (ok : Bool) (s : System) : Bool × System :=
  (true, if ok then { s with downloadDir := none } else s)

/-- `os.makedirs(_DOWNLOAD_DIR)`. -/
def makedirs (ok : Bool) (s : System) : Bool × System :=
  if ok ∧ s.downloadDir.isNone then (true, { s with downloadDir := some ⟨none, none, none, none⟩ })
  else (false, s)

/-- `wget url -O firmware.gz`. -/
def wget (archive : Bytes × Bool) (s : System) : Bool × System :=
  (archive.2, s.edit ({ · with gz := some archive.1 }))

/-- `gunzip firmware.gz`. -/
def gunzip (image : Option Bytes) (s : System) : Bool × System :=
  match image with
  | some x => (true, s.edit ({ · with gz := none, image := some x }))
  | none => (false, s)

/-- The path of the decompressed image. -/
def extractedFileName : Bytes := str "/data/.firmware_update/firmware"

/-- Start and end sector of a partition, in a line of `fdisk -l`. -/
def sectors (line : Bytes) : Option (Int × Int) :=
  let info := words ((strip line).map fun b ↦ if b = 42 then 32 else b)
  match info with
  | _ :: start :: last :: _ => (parseInt start).bind fun a ↦ (parseInt last).map fun b ↦ (a, b)
  | _ => none

/-- The boot and the root partition of the image, `package/motioneye/update.py:142-148`. -/
def partitionTable (output : Bytes) : Option ((Int × Int) × (Int × Int)) :=
  match (splitLines output).filter extractedFileName.isPrefixOf with
  | boot :: root :: _ => (sectors boot).bind fun b ↦ (sectors root).map fun r ↦ (b, r)
  | _ => none

/-- What `dd bs=2048 skip=start/4 count=(last-start+1)/4` copies. It takes no negative
number. -/
def extract (image : Bytes) (sectors : Int × Int) : Option Bytes :=
  let skip := sectors.1 / 4
  let count := (sectors.2 - sectors.1 + 1) / 4
  if skip < 0 ∨ count < 0 then none
  else some ((image.drop (2048 * skip.toNat)).take (2048 * count.toNat))

/-- `dd` from the image to a file of the download directory. -/
def ddExtract (set : Bytes → DownloadDir → DownloadDir) (sectors : Int × Int) (fault : Option Nat)
    (s : System) : Bool × System :=
  match (s.downloadDir.bind (·.image)).bind (extract · sectors) with
  | some x =>
    match fault with
    | none => (true, s.edit (set x))
    | some n => (false, s.edit (set (x.take n)))
  | none => (false, s)

/-- `package/motioneye/update.py:112-175`. -/
def download (c : Commands) : Update Unit := do
  call .makedirs (rmtree c.rmtree)
  call .makedirs (makedirs c.makedirs)
  call .wget (wget c.wget)
  call .gunzip (gunzip c.gunzip)
  match c.fdisk.bind partitionTable with
  | none => fail .partitionTable
  | some (boot, root) =>
    call .extractBoot (ddExtract (fun x d ↦ { d with bootImg := some x }) boot c.extractBoot)
    call .extractRoot (ddExtract (fun x d ↦ { d with rootImg := some x }) root c.extractRoot)

/-! ### perform_update -/

section PerformUpdate

variable (fs : FileSystem)

/-- `/boot/config.txt`. Without the partition the directory is empty. -/
def System.config (s : System) : Option Bytes :=
  if s.mounted then fs.files s.boot "config.txt" else none

/-- The kernel writes `/boot/config.txt`; the device follows later. -/
def System.setConfig (s : System) (x : Bytes) : System :=
  { s with boot := fs.write s.boot x, unsynced := s.unsynced ++ [s.boot] }

/-- `cp /boot/config.txt /tmp/config.txt`. -/
def cpBackup (fault : Option Nat) (s : System) : Bool × System :=
  match s.config fs, fault with
  | some x, none => (true, { s with tmpConfig := some x })
  | some x, some n => (false, { s with tmpConfig := some (x.take n) })
  | none, _ => (false, s)

/-- `umount /boot`, which writes everything to the device. -/
def umount (ok : Bool) (s : System) : Bool × System :=
  if ok ∧ s.mounted then (true, { s with mounted := false, unsynced := [] }) else (false, s)

/-- The device after the first `n` bytes of an image have been written over it. -/
def overwrite (n : Nat) (image device : Bytes) : Bytes := image.take n ++ device.drop n

/-- `dd if=boot.img of=/dev/mmcblk0p1`, which ends with everything on the device. It fails at
the end of the device. -/
def ddInstall (fault : Option Nat) (s : System) : Bool × System :=
  match s.bootImg with
  | none => (false, s)
  | some image =>
    let n := min (fault.getD image.length) (min image.length s.boot.length)
    (fault.isNone && image.length ≤ s.boot.length,
      { s with boot := overwrite n image s.boot, unsynced := [] })

/-- `mount -o rw /dev/mmcblk0p1 /boot`. -/
def mount (ok : Bool) (s : System) : Bool × System :=
  if ok then (true, { s with mounted := true }) else (false, s)

/-- `cp /tmp/config.txt /boot/config.txt`. -/
def cpRestore (fault : Option (Option Nat)) (s : System) : Bool × System :=
  match s.tmpConfig, fault with
  | some x, none => (true, s.setConfig fs x)
  | some _, some none => (false, s)
  | some x, some (some n) => (false, s.setConfig fs (x.take n))
  | none, _ => (false, s)

/-- `[c.strip() for c in f.readlines() if c.strip()]`. -/
def configLines (x : Bytes) : List Bytes :=
  ((readlines x).filter fun c ↦ strip c ≠ []).map strip

/-- Read `/boot/config.txt`, `package/motioneye/update.py:225-231`. -/
def readConfig (ok : Bool) : Update (List Bytes) := fun s ↦
  match s.config fs with
  | some x => if ok then .ok (configLines x) s else fail .read s
  | none => fail .read s

/-- Truncate and write `/boot/config.txt`, `package/motioneye/update.py:235-243`. -/
def writeConfig (lines : List Bytes) (fault : Option (Option Nat)) (s : System) : Bool × System :=
  match fault with
  | none => (true, (s.setConfig fs []).setConfig fs (unlines lines))
  | some none => (false, s)
  | some (some n) =>
    (false, (s.setConfig fs []).setConfig fs ((unlines lines).take n))

/-- `package/motioneye/update.py:247-250`. Writing `b` to `/proc/sysrq-trigger` reboots at
once. -/
def reboot : Reboot → Update Unit
  | .ok => pure ()
  | .hard synced => fun s ↦ .ok () { s with
      boot := (s.unsynced ++ [s.boot]).getD synced s.boot
      errors := s.errors ++ [Failure.hardReboot.text] }
  | .denied => fail .hardReboot

/-- The line that makes the firmware boot into the updater. -/
def initramfsLine : Bytes := str "initramfs fwupdater.gz"

/-- `package/motioneye/update.py:178-250`. The ends of the two commands before `download`
are ignored. -/
def performUpdate (c : Commands) : Update Unit := do
  download c
  call .backup (cpBackup fs c.backup)
  call .unmount (umount c.umount)
  call .install (ddInstall c.install)
  call .mount (mount c.mount)
  call .restore (cpRestore fs c.restore)
  let lines ← readConfig fs c.read
  call .rewrite (writeConfig fs (lines ++ [initramfsLine]) c.rewrite)
  reboot c.reboot

end PerformUpdate

end MotionPie.Package.Motioneye
