import MotionPie.Base.Window
import MotionPie.Package.Motioneye.Update

/-!
# The sectors of a partition

`download` cuts the partitions out of the image in blocks of four sectors. It finds exactly the
sectors of a partition, whatever is in the image, when the partition starts at a block and ends
with one; otherwise the image of the partition is shifted or cut short.
-/

namespace MotionPie.Package.Motioneye

open Base

/-- The bytes of the sectors from the first to the last one. -/
def sectorBytes (image : Bytes) (sectors : Int × Int) : Bytes :=
  window (512 * sectors.1.toNat) (512 * (sectors.2 - sectors.1 + 1).toNat) image

/-- The partition starts at a block of four sectors and ends with one. -/
def Aligned (sectors : Int × Int) : Prop := 4 ∣ sectors.1 ∧ 4 ∣ sectors.2 - sectors.1 + 1

/-- A partition with a sector. -/
structure IsPartition (sectors : Int × Int) : Prop where
  start : 0 ≤ sectors.1
  last : sectors.1 ≤ sectors.2

/-- The commands of a download that succeed, with the image and with what `fdisk` prints about
it. -/
structure Succeed (c : Commands) (output image : Bytes) : Prop where
  rmtree : c.rmtree = true
  makedirs : c.makedirs = true
  wget : c.wget.2 = true
  gunzip : c.gunzip = some image
  fdisk : c.fdisk = some output
  extractBoot : c.extractBoot = none
  extractRoot : c.extractRoot = none

/-- With this output of `fdisk` every download whose commands succeed leaves exactly the bytes of the
two partitions in the download directory. -/
def ExtractsExactly (output : Bytes) (boot root : Int × Int) : Prop :=
  ∀ c s image, Succeed c output image → ∃ s', (download c).run s = .ok () s' ∧
    s'.bootImg = some (sectorBytes image boot) ∧ s'.rootImg = some (sectorBytes image root)

/-! ### Blocks -/

variable {sectors boot root : Int × Int} {c : Commands} {output image : Bytes}

/-- What `dd` copies of a partition. -/
theorem extract_eq (h : IsPartition sectors) (image : Bytes) :
    extract image sectors = some (window (2048 * (sectors.1 / 4).toNat)
      (2048 * ((sectors.2 - sectors.1 + 1) / 4).toNat) image) := by
  have hstart := h.start
  have hlast := h.last
  have hnonneg : ¬ (sectors.1 / 4 < 0 ∨ (sectors.2 - sectors.1 + 1) / 4 < 0) := by omega
  simp only [extract, if_neg hnonneg]
  rfl

/-- `dd` copies the sectors of a partition out of every image if and only if it is aligned. -/
theorem extract_eq_sectorBytes_iff (h : IsPartition sectors) :
    (∀ image, extract image sectors = some (sectorBytes image sectors)) ↔ Aligned sectors := by
  have hstart := h.start
  have hlast := h.last
  have : Nontrivial UInt8 := ⟨0, 1, by decide⟩
  have hwindow := window_eq_iff (α := UInt8) (a := 2048 * (sectors.1 / 4).toNat)
    (m := 2048 * ((sectors.2 - sectors.1 + 1) / 4).toNat) (b := 512 * sectors.1.toNat)
    (n := 512 * (sectors.2 - sectors.1 + 1).toNat)
  simp only [extract_eq h, Option.some.injEq, sectorBytes]
  refine hwindow.trans ?_
  rw [Aligned]
  omega

/-! ### Runs -/

/-- A command that succeeds hands its system on. -/
theorem run_call_bind {e : Failure} {command : System → Bool × System} {s t : System}
    (h : command s = (true, t)) (f : Unit → Update Unit) :
    (call e command >>= f).run s = (f ()).run t := by
  have hcall : call e command s = .ok () t := by rw [call, h]
  change EStateM.bind (call e command) f s = f () t
  rw [EStateM.bind, hcall]

/-- What a download leaves whose commands succeed. -/
theorem download_run (h : Succeed c output image) (s : System)
    (htable : partitionTable output = some (boot, root)) {bootImg rootImg : Bytes}
    (hboot : extract image boot = some bootImg) (hroot : extract image root = some rootImg) :
    (download c).run s = .ok () { s with
      downloadDir := some ⟨none, some image, some bootImg, some rootImg⟩ } := by
  rw [download, run_call_bind (t := { s with downloadDir := none }) (by rw [rmtree, h.rmtree]; rfl),
    run_call_bind (t := { s with downloadDir := some ⟨none, none, none, none⟩ })
      (by rw [makedirs, h.makedirs]; rfl),
    run_call_bind (t := { s with downloadDir := some ⟨some c.wget.1, none, none, none⟩ })
      (by rw [wget, h.wget]; rfl),
    run_call_bind (t := { s with downloadDir := some ⟨none, some image, none, none⟩ })
      (by rw [h.gunzip]; rfl), h.fdisk, Option.bind_some, htable]
  simp only
  rw [run_call_bind (t := { s with downloadDir := some ⟨none, some image, some bootImg, none⟩ })
    (by simp [ddExtract, System.edit, hboot, h.extractBoot])]
  simp [EStateM.run, call, ddExtract, System.edit, hroot, h.extractRoot]

/-- A system whose commands all succeed with an image. -/
def succeeding (output image : Bytes) : Commands where
  rmtree := true
  makedirs := true
  wget := ([], true)
  gunzip := some image
  fdisk := some output
  extractBoot := none
  extractRoot := none
  backup := none
  umount := true
  install := none
  mount := true
  restore := none
  read := true
  rewrite := none
  reboot := .ok

/-- What exact extraction says about `dd`. -/
theorem ExtractsExactly.extract (htable : partitionTable output = some (boot, root))
    (hboot : IsPartition boot) (hroot : IsPartition root) (h : ExtractsExactly output boot root)
    (image : Bytes) : extract image boot = some (sectorBytes image boot) ∧
      extract image root = some (sectorBytes image root) := by
  have hsucceed : Succeed (succeeding output image) output image :=
    ⟨rfl, rfl, rfl, rfl, rfl, rfl, rfl⟩
  obtain ⟨s', hrun, hbootImg, hrootImg⟩ :=
    h (succeeding output image) ⟨[], [], true, none, none, []⟩ image hsucceed
  rw [download_run hsucceed _ htable (extract_eq hboot image) (extract_eq hroot image)] at hrun
  cases hrun
  exact ⟨(extract_eq hboot image).trans hbootImg, (extract_eq hroot image).trans hrootImg⟩

/-- A download extracts the partitions exactly if and only if both are aligned. -/
theorem extractsExactly_iff (htable : partitionTable output = some (boot, root))
    (hboot : IsPartition boot) (hroot : IsPartition root) :
    ExtractsExactly output boot root ↔ Aligned boot ∧ Aligned root := by
  rw [← extract_eq_sectorBytes_iff hboot, ← extract_eq_sectorBytes_iff hroot]
  constructor
  · intro h
    have himages := h.extract htable hboot hroot
    exact ⟨fun image ↦ (himages image).1, fun image ↦ (himages image).2⟩
  · rintro ⟨hbootImg, hrootImg⟩ c s image hsucceed
    exact ⟨_, download_run hsucceed s htable (hbootImg image) (hrootImg image), rfl, rfl⟩

/-- The listing of an image whose partitions start at multiples of a mebibyte. -/
theorem extractsExactly_iff_mebibytes :
    ExtractsExactly
        (str "/data/.firmware_update/firmware1 *  2048  34815  16384  e W95 FAT16 (LBA)\n" ++
          str "/data/.firmware_update/firmware2   34816 280575 122880 83 Linux\n")
        (2048, 34815) (34816, 280575) ↔ Aligned (2048, 34815) ∧ Aligned (34816, 280575) :=
  extractsExactly_iff (by decide +kernel) ⟨by decide, by decide⟩ ⟨by decide, by decide⟩

/-- The listing of an image whose first partition starts at sector 63. -/
def cylinders : Bytes :=
  str "/data/.firmware_update/firmware1 *  63  32129  16033+ e W95 FAT16 (LBA)\n" ++
    str "/data/.firmware_update/firmware2  32130 273104 120487+ 83 Linux\n"

/-- A partition that does not start at a block of four sectors is not extracted exactly. -/
theorem cylinders_not_exact :
    partitionTable cylinders = some ((63, 32129), (32130, 273104)) ∧ IsPartition (63, 32129) ∧
      IsPartition (32130, 273104) ∧ ¬ ExtractsExactly cylinders (63, 32129) (32130, 273104) := by
  have htable : partitionTable cylinders = some ((63, 32129), (32130, 273104)) := by
    decide +kernel
  have hboot : IsPartition (63, 32129) := ⟨by decide, by decide⟩
  have hroot : IsPartition (32130, 273104) := ⟨by decide, by decide⟩
  refine ⟨htable, hboot, hroot, fun h ↦ ?_⟩
  have haligned := (extract_eq_sectorBytes_iff hboot).mp fun image ↦
    (h.extract htable hboot hroot image).1
  exact absurd haligned.1 (by decide)

end MotionPie.Package.Motioneye
