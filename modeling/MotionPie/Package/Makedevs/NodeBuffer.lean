import MotionPie.Base.Block
import MotionPie.Package.Makedevs.Nodes

/-!
# The buffer for the names of nodes

`package/makedevs/makedevs.c:526-532`: one buffer, eight bytes longer than the name of the line, is
taken for all nodes of a range, and the names are printed to it.
-/

namespace MotionPie.Package.Makedevs

open Base

/-- `full_name_inc`, `makedevs.c:530`. -/
def nodeBuffer (junk : ℕ → UInt8) (path : Bytes) : Bytes := malloc junk (path.length + 8)

/-- The name of node `i` is printed, with its terminator, to what the buffer holds,
`makedevs.c:532`. -/
def printNode (buf path : Bytes) (v : Fields) (i : ℕ) : Option Bytes :=
  storeAll buf 0 (nodeName path v i ++ [0])

/-- The names of the first nodes, one after the other. -/
def printNodes (path : Bytes) (v : Fields) : ℕ → Bytes → Option Bytes
  | 0, buf => some buf
  | i + 1, buf => (printNodes path v i buf).bind fun buf ↦ printNode buf path v i

variable {v : Fields} {memory : Memory} {line : Bytes} {i : ℕ}

/-- A number below ten millions has seven digits at most. -/
theorem length_showNat_le {n : ℕ} (h : n < 10000000) : (showNat n).length ≤ 7 := by
  rw [showNat, List.length_map, Nat.length_toDigits_le_iff (by decide) (by decide)]
  exact h

/-- The numbers of the nodes are sums that have room. -/
theorem start_add_lt (hline : check memory line = .accepted v) (hi : i < v.count.toNat) :
    v.start.toNat + i < 2097151 := by
  obtain ⟨-, hstart, hcount⟩ := le_maxNumber_of_check hline
  omega

/-- A name that is printed to a buffer of the right length. -/
theorem printNode_eq (hline : check memory line = .accepted v) (hi : i < v.count.toNat)
    {buf path : Bytes} (hbuf : buf.length = path.length + 8) :
    ∃ rest : Bytes,
      printNode buf path v i = some (path ++ showNat (v.start.toNat + i) ++ 0 :: rest) ∧
        (path ++ showNat (v.start.toNat + i) ++ 0 :: rest).length = path.length + 8 := by
  have hsum := start_add_lt hline hi
  have hname : nodeName path v i = path ++ showNat (v.start.toNat + i) := nodeName_eq (by omega)
  have hdigits := length_showNat_le (n := v.start.toNat + i) (by omega)
  have hroom : 0 + (path ++ showNat (v.start.toNat + i) ++ [0]).length ≤ buf.length := by
    rw [hbuf, List.length_append, List.length_append, List.length_singleton]
    omega
  refine ⟨buf.drop (0 + (path ++ showNat (v.start.toNat + i) ++ [0]).length), ?_, ?_⟩
  · rw [printNode, hname, storeAll_eq_some hroom]
    simp
  · simp only [List.length_append, List.length_cons, List.length_drop, List.length_nil] at hroom ⊢
    omega

/-- The buffer between two nodes. -/
theorem length_printNodes (hline : check memory line = .accepted v) (path : Bytes)
    {n : ℕ} (hn : n ≤ v.count.toNat) {buf : Bytes} (hbuf : buf.length = path.length + 8) :
    ∃ buf', printNodes path v n buf = some buf' ∧ buf'.length = path.length + 8 := by
  induction n with
  | zero => exact ⟨buf, rfl, hbuf⟩
  | succ i ih =>
    obtain ⟨buf', hprint, hlength⟩ := ih (by omega)
    obtain ⟨rest, hnode, hnext⟩ := printNode_eq hline (show i < v.count.toNat by omega) hlength
    exact ⟨_, by rw [printNodes, hprint, Option.bind_some, hnode], hnext⟩

/-- The fields of `/dev/x b 640 0 0 3 0 1048575 0 1048575`. -/
def largestRange : Fields :=
  ⟨str "/dev/x", 98, 0o640, str "0", str "0", 3, 0, 0xfffff, 0, 0xfffff⟩

/-- The names of all nodes of a line fit into its buffer, and the numbers in them are the sums,
which are neither too large for an `unsigned int` nor for the `int` that is printed. -/
theorem printNodes_fits (hline : check memory line = .accepted v) (hi : i < v.count.toNat)
    (junk : ℕ → UInt8) (path : Bytes) :
    (v.start + UInt32.ofNat i).toNat = v.start.toNat + i ∧
    (v.start + UInt32.ofNat i).toInt32.toInt = ((v.start.toNat + i : ℕ) : ℤ) ∧
    ∃ buf rest : Bytes, printNodes path v i (nodeBuffer junk path) = some buf ∧
      printNode buf path v i = some (path ++ showNat (v.start.toNat + i) ++ 0 :: rest) ∧
        (path ++ showNat (v.start.toNat + i) ++ [0]).length ≤ (nodeBuffer junk path).length := by
  have hsum := start_add_lt hline hi
  have hlength : (nodeBuffer junk path).length = path.length + 8 := length_malloc _
  have hbefore : i ≤ v.count.toNat := Nat.le_of_lt hi
  obtain ⟨buf, hprint, hbuf⟩ := length_printNodes hline path hbefore hlength
  obtain ⟨rest, hnode, hrest⟩ := printNode_eq hline hi hbuf
  refine ⟨toNat_number (by omega), toInt_number (by omega), buf, rest, hprint, hnode, ?_⟩
  rw [hlength, ← hrest]
  simp

/-- The largest numbers that a line can have. -/
theorem printNodes_fits_largest :
    ((0xfffff : UInt32) + UInt32.ofNat 0xffffe).toNat = 0xfffff + 0xffffe ∧
    ((0xfffff : UInt32) + UInt32.ofNat 0xffffe).toInt32.toInt = ((0xfffff + 0xffffe : ℕ) : ℤ) ∧
    ∃ buf rest : Bytes, printNodes (str "/dev/x") largestRange 0xffffe
        (nodeBuffer (fun _ ↦ 85) (str "/dev/x")) = some buf ∧
      printNode buf (str "/dev/x") largestRange 0xffffe =
        some (str "/dev/x" ++ showNat (0xfffff + 0xffffe) ++ 0 :: rest) ∧
      (str "/dev/x" ++ showNat (0xfffff + 0xffffe) ++ [0]).length ≤
        (nodeBuffer (fun _ ↦ 85) (str "/dev/x")).length :=
  @printNodes_fits largestRange ⟨[], 0, [], []⟩
    (str "/dev/x b 640 0 0 3 0 1048575 0 1048575") 0xffffe (by decide +kernel) (by decide)
    (fun _ ↦ 85) (str "/dev/x")

end MotionPie.Package.Makedevs
