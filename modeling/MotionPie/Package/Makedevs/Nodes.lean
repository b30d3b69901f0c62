import Mathlib.Data.List.Nodup
import MotionPie.Package.Makedevs.Main

/-!
# Ranges of nodes

A line with a count stands for so many nodes, `package/makedevs/makedevs.c:526-547`. The numbers of
the line are checked, but not those that the loop makes from them.
-/

namespace MotionPie.Package.Makedevs

open Base

universe u

/-- A call of `mknod`. -/
structure NodeCall where
  path : Bytes
  mode : UInt32
  rdev : Device
  deriving DecidableEq

variable {σ : Type u}

/-- The system with a record of all calls of `mknod`. -/
def Kernel.logged (kernel : Kernel σ) : Kernel (σ × List NodeCall) where
  mkdir path mode umask s :=
    let made := kernel.mkdir path mode umask s.1
    (made.1, made.2, s.2)
  stat path s := kernel.stat path s.1
  chmod path mode s :=
    let made := kernel.chmod path mode s.1
    (made.1, made.2, s.2)
  chown path uid gid s :=
    let made := kernel.chown path uid gid s.1
    (made.1, made.2, s.2)
  mknod path mode rdev s :=
    let made := kernel.mknod path mode rdev s.1
    (made.1, made.2, s.2 ++ [⟨path, mode, rdev⟩])
  -- the visitor of the program makes no nodes
  nftw path visit s :=
    let walked := kernel.nftw path (fun p files ↦
      let visited := visit p (files, s.2)
      (visited.1, visited.2.1)) s.1
    (walked.1, walked.2, s.2)

variable {kernel : Kernel σ} {env : Env} {v : Fields} {memory : Memory} {line path text : Bytes}
  {mode uid gid bits : UInt32} {rdev : Device}

/-! ### The calls that are made -/

/-- The files after a system call. -/
theorem attempt_files (a : Acted σ) (call : σ → Option Errno × σ) (text : Bytes) :
    (a.attempt call text).2.files = (call a.files).2 := by
  rw [Acted.attempt]
  split <;> rfl

/-- A node takes one call. -/
theorem makeNode_log (a : Acted (σ × List NodeCall)) :
    (makeNode kernel.logged mode uid gid path rdev a).files.2 =
      a.files.2 ++ [⟨path, mode, rdev⟩] := by
  simp only [makeNode]
  split
  · rw [attempt_files]
    split <;> simp only [attempt_files, Kernel.logged]
  · split <;> simp only [attempt_files, Kernel.logged]

/-- The calls of a range. -/
theorem foldl_log (l : List ℕ) (a : Acted (σ × List NodeCall)) :
    (l.foldl (fun a i ↦
      makeNode kernel.logged mode uid gid (nodeName path v i) (nodeDevice v i) a) a).files.2 =
      a.files.2 ++ l.map fun i ↦ ⟨nodeName path v i, mode, nodeDevice v i⟩ := by
  induction l generalizing a with
  | nil => simp
  | cons i l ih =>
    rw [List.foldl_cons, ih, makeNode_log, List.map_cons, List.append_assoc,
      List.singleton_append]

/-- A node is of no type that has no nodes. -/
theorem ne_of_nodeType {type type' : UInt8} (htype : nodeType type = some bits)
    (hnone : nodeType type' = none) : type ≠ type' := by
  rintro rfl
  rw [hnone] at htype
  cases htype

/-- A line with a count makes the calls of its range. -/
theorem act_log (htype : nodeType v.type = some bits) (hcount : 0 < v.count) {files : σ}
    {a : Acted (σ × List NodeCall)} (hact : act kernel.logged env v (files, []) = some (.ok a)) :
    a.files.2 = (List.range v.count.toNat).map fun i ↦
      ⟨nodeName (concatPathFile env.rootdir v.name) v i, v.mode ||| bits, nodeDevice v i⟩ := by
  have hdir : v.type ≠ 100 := ne_of_nodeType htype rfl
  have hfile : v.type ≠ 102 := ne_of_nodeType htype rfl
  have hrecursive : v.type ≠ 114 := ne_of_nodeType htype rfl
  rw [act] at hact
  split at hact
  · cases hact
  split at hact
  · cases hact
  simp only [if_neg hdir, if_neg hfile, if_neg hrecursive, Option.some.injEq,
    Except.ok.injEq] at hact
  rw [← hact, actNodes, htype]
  simp only [if_pos hcount, foldl_log, List.nil_append]

/-! ### The numbers of the nodes -/

/-- The numbers of a line that is accepted. -/
theorem le_maxNumber_of_check (h : check memory line = .accepted v) :
    v.minor.toNat ≤ 0xfffff ∧ v.start.toNat ≤ 0xfffff ∧ v.count.toNat ≤ 0xfffff := by
  simp only [check] at h
  split at h
  · split at h <;> cases h
  · next hgood =>
    split at h
    · cases h
    · obtain rfl := Checked.accepted.inj h
      rw [not_or, UInt32.not_lt, UInt32.le_iff_toNat_le] at hgood
      obtain ⟨-, hbound⟩ := hgood
      simp only [UInt32.toNat_or] at hbound
      have hmax : maxNumber.toNat = 0xfffff := rfl
      rw [hmax] at hbound
      have hcount := Nat.left_le_or.trans hbound
      have hstart := Nat.left_le_or.trans hcount
      have hminor := Nat.left_le_or.trans hstart
      exact ⟨Nat.right_le_or.trans hminor, Nat.right_le_or.trans hstart,
        Nat.right_le_or.trans hcount⟩

/-- The number of a node is the sum, as far as there is room for it. -/
theorem toNat_number {i : ℕ} (h : v.start.toNat + i < 2 ^ 31) :
    (v.start + UInt32.ofNat i).toNat = v.start.toNat + i := by
  rw [UInt32.toNat_add, UInt32.toNat_ofNat', Nat.mod_eq_of_lt (a := i) (by omega),
    Nat.mod_eq_of_lt (by omega)]

/-- The number of a node stays the same as an `int`. -/
theorem toInt_number {i : ℕ} (h : v.start.toNat + i < 2 ^ 31) :
    (v.start + UInt32.ofNat i).toInt32.toInt = ((v.start.toNat + i : ℕ) : ℤ) := by
  have hnat := toNat_number h
  rw [← hnat, Int32.toInt, UInt32.toBitVec_toInt32]
  refine BitVec.toInt_eq_toNat_of_lt ?_
  rw [UInt32.toNat_toBitVec, hnat]
  omega

/-- A name ends with the number of its node. -/
theorem nodeName_eq {i : ℕ} (h : v.start.toNat + i < 2 ^ 31) :
    nodeName path v i = path ++ showNat (v.start.toNat + i) := by
  rw [nodeName, toInt_number h]
  rfl

/-- The minor number of a node is that of the sum, as far as there is room for it. -/
theorem nodeDevice_minor {i : ℕ} (h : v.minor.toNat + i * v.increment.toNat < 2 ^ 32) :
    (nodeDevice v i).minor.toNat = v.minor.toNat + i * v.increment.toNat := by
  rw [nodeDevice, UInt32.toNat_add, UInt32.toNat_mul, UInt32.toNat_ofNat', Nat.add_mod_mod,
    Nat.add_mod, Nat.mod_mul_mod, ← Nat.add_mod, Nat.mod_eq_of_lt h]

/-- A line with a count makes its nodes with the names and the minor numbers that it says, none of
them too large, and with different devices if the increment is not zero, exactly when the last of
its minor numbers is not too large. -/
theorem act_nodes_iff (hline : check memory line = .accepted v)
    (htype : nodeType v.type = some bits) (hcount : 0 < v.count) {files : σ}
    {a : Acted (σ × List NodeCall)} (hact : act kernel.logged env v (files, []) = some (.ok a)) :
    (a.files.2.length = v.count.toNat ∧
      (∀ i < v.count.toNat, ∃ minor : UInt32,
        minor.toNat = v.minor.toNat + i * v.increment.toNat ∧ minor ≤ maxNumber ∧
        a.files.2[i]? = some ⟨concatPathFile env.rootdir v.name ++ showNat (v.start.toNat + i),
          v.mode ||| bits, ⟨v.major, minor⟩⟩) ∧
      (0 < v.increment → (a.files.2.map NodeCall.rdev).Nodup)) ↔
    v.minor.toNat + (v.count.toNat - 1) * v.increment.toNat ≤ maxNumber.toNat := by
  obtain ⟨hminor, hstart, hbound⟩ := le_maxNumber_of_check hline
  have hpos : 0 < v.count.toNat := UInt32.lt_iff_toNat_lt.mp hcount
  have hmax : maxNumber.toNat = 0xfffff := rfl
  rw [act_log htype hcount hact]
  constructor
  · rintro ⟨-, hall, -⟩
    obtain ⟨minor, hexact, hle, -⟩ := hall (v.count.toNat - 1) (by omega)
    rw [← hexact]
    exact UInt32.le_iff_toNat_le.mp hle
  · intro hlast
    have hsum : ∀ i < v.count.toNat,
        v.minor.toNat + i * v.increment.toNat ≤ maxNumber.toNat := by
      intro i hi
      have hmul := Nat.mul_le_mul_right v.increment.toNat (show i ≤ v.count.toNat - 1 by omega)
      omega
    have hexact : ∀ i < v.count.toNat,
        (nodeDevice v i).minor.toNat = v.minor.toNat + i * v.increment.toNat :=
      fun i hi ↦ nodeDevice_minor (by have := hsum i hi; omega)
    refine ⟨by rw [List.length_map, List.length_range], fun i hi ↦ ?_, fun hincrement ↦ ?_⟩
    · refine ⟨(nodeDevice v i).minor, hexact i hi, ?_, ?_⟩
      · rw [UInt32.le_iff_toNat_le, hexact i hi]
        exact hsum i hi
      · rw [List.getElem?_map, List.getElem?_range hi, Option.map_some,
          nodeName_eq (by omega)]
        rfl
    · rw [List.map_map]
      refine List.Nodup.map_on (fun i hi j hj heq ↦ ?_) List.nodup_range
      have hincrement : 0 < v.increment.toNat := UInt32.lt_iff_toNat_lt.mp hincrement
      have hsame : (nodeDevice v i).minor.toNat = (nodeDevice v j).minor.toNat :=
        congrArg (fun d : Device ↦ d.minor.toNat) heq
      rw [hexact i (List.mem_range.mp hi), hexact j (List.mem_range.mp hj)] at hsame
      exact Nat.eq_of_mul_eq_mul_right hincrement (Nat.add_left_cancel hsame)

/-- The fields of `name b 640 0 0 3 minor 0 1 2`. -/
def twoNodes (name : String) (minor : UInt32) : Fields :=
  ⟨str name, 98, 0o640, str "0", str "0", 3, minor, 0, 1, 2⟩

/-- A range that starts at the largest minor number goes on behind it. -/
theorem act_nodes_large :
    check ⟨[], 0, [], []⟩ (str "/dev/x b 640 0 0 3 1048575 0 1 2") =
      .accepted (twoNodes "/dev/x" 0xfffff) ∧
    ((act quiet.logged rootEnv (twoNodes "/dev/x" 0xfffff) ((), [])).bind Except.toOption).map
        (·.files.2) =
      some [⟨str "/target/dev/x0", 0o60640, ⟨3, 0xfffff⟩⟩,
        ⟨str "/target/dev/x1", 0o60640, ⟨3, 0x100000⟩⟩] ∧
    maxNumber < 0x100000 := by
  decide +kernel

/-- What the line for two nodes does in the quiet system. -/
def twoNodesActed : Acted (Unit × List NodeCall) :=
  ⟨((), [⟨str "/target/dev/x0", 0o60640, ⟨3, 0⟩⟩, ⟨str "/target/dev/x1", 0o60640, ⟨3, 1⟩⟩]), [],
    false⟩

/-- Two nodes with small numbers. -/
theorem act_nodes_iff_two :
    (twoNodesActed.files.2.length = 2 ∧
      (∀ i < 2, ∃ minor : UInt32, minor.toNat = 0 + i * 1 ∧ minor ≤ maxNumber ∧
        twoNodesActed.files.2[i]? = some ⟨concatPathFile (str "/target") (str "/dev/x") ++
          showNat (0 + i), 0o640 ||| 0o60000, ⟨3, minor⟩⟩) ∧
      ((0 : UInt32) < 1 → (twoNodesActed.files.2.map NodeCall.rdev).Nodup)) ↔
    0 + (2 - 1) * 1 ≤ maxNumber.toNat :=
  @act_nodes_iff Unit quiet rootEnv (twoNodes "/dev/x" 0) ⟨[], 0, [], []⟩
    (str "/dev/x b 640 0 0 3 0 0 1 2") 0o60000 (by decide +kernel) (by decide +kernel)
    (by decide +kernel) () twoNodesActed (by rfl)

end MotionPie.Package.Makedevs
