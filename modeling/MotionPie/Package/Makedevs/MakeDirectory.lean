import Mathlib.Data.Nat.Bitwise
import MotionPie.Base.FileTree

/-!
# Directories with their parents

`package/makedevs/makedevs.c:108-189`: `bb_make_directory` cuts the path in the buffer of its
caller behind each run of slashes, makes the directory that is named so far and puts the cut byte
back. The system calls are a parameter: any state, and any result of a call in it.
-/

namespace MotionPie.Package.Makedevs

open Base

universe u

/-- What `stat` says of a file. -/
inductive FileType
  | directory
  | regular
  | other
  deriving DecidableEq

/-- The system calls on the files, with the file mode creation mask of the process. -/
structure FileCalls (σ : Type u) where
  mkdir (path : Bytes) (mode umask : ℕ) : σ → Option Errno × σ
  stat (path : Bytes) : σ → Option FileType
  chmod (path : Bytes) (mode : ℕ) : σ → Option Errno × σ

/-- How a call of `bb_make_directory` ends: the value that it returns, the buffer of the caller,
the mask, the files, and what it says in `Cannot %s directory`. -/
structure MadeDirectory (σ : Type u) where
  ret : ℤ
  buf : Bytes
  umask : ℕ
  files : σ
  failed : Option (Bytes × Bytes)

/-- The string in a buffer: its bytes up to the first nul. -/
def text (buf : Bytes) : Bytes := buf.takeWhile fun b ↦ b != 0

/-- `makedevs.c:137-151`: from index `s` the cut moves behind the next run of slashes; the byte
that is cut off, the buffer and the index. -/
def nextCut (buf : Bytes) (s : ℕ) : UInt8 × Bytes × ℕ :=
  let s := s + ((buf.drop s).takeWhile fun b ↦ b != 0 && b != slash).length
  if buf.getD s 0 = slash then
    let s := s + ((buf.drop s).takeWhile fun b ↦ b == slash).length
    (buf.getD s 0, buf.set s 0, s)
  else (0, buf, s)

variable {σ : Type u}

/-- The loop, `makedevs.c:133-185`, with at most so many rounds; `umask` is the mask that is set
for the directories, `mask` the one of the caller. -/
def makeLoop (calls : FileCalls σ) (recur : Bool) (mask umask mode : ℕ) :
    ℕ → Bytes → ℕ → σ → Option (MadeDirectory σ)
  | 0, _, _, _ => none
  | rounds + 1, buf, s, files =>
    let cut := if recur then nextCut buf s else (0, buf, s)
    let path := text cut.2.1
    let made := calls.mkdir path 0o777 umask files
    if made.1 = none then
      if cut.1 = 0 then
        let changed := calls.chmod path mode made.2
        if changed.1 = none then some ⟨0, cut.2.1, mask, changed.2, none⟩
        else some ⟨-1, cut.2.1, mask, changed.2, some (str "set permissions of", path)⟩
      else makeLoop calls recur mask umask mode rounds (cut.2.1.set cut.2.2 cut.1) cut.2.2 made.2
    else if (made.1 ≠ some .eexist ∧ made.1 ≠ some .eisdir) ∨ recur = false ∨
        calls.stat path made.2 ≠ some .directory then
      some ⟨-1, cut.2.1, mask, made.2, some (str "create", path)⟩
    else if cut.1 = 0 then some ⟨0, cut.2.1, mask, made.2, none⟩
    else makeLoop calls recur mask umask mode rounds (cut.2.1.set cut.2.2 cut.1) cut.2.2 made.2

/-- The mask for the directories on the way, `makedevs.c:123-131`: a given mode leaves the owner
the right to write and search. -/
def wayMask (mode : Option ℕ) (mask : ℕ) : ℕ :=
  match mode with
  | none => mask
  | some _ => Nat.ldiff mask 0o300

/-- The mode for the directory itself; `none` stands for `-1`. -/
def requestedMode (mode : Option ℕ) (mask : ℕ) : ℕ := mode.getD (Nat.ldiff 0o777 mask)

/-- `bb_make_directory`, `makedevs.c:115-189`, for the buffer `path` and its nul. -/
def makeDirectory (calls : FileCalls σ) (path : Bytes) (mode : Option ℕ) (recur : Bool)
    (mask : ℕ) (files : σ) : Option (MadeDirectory σ) :=
  makeLoop calls recur mask (wayMask mode mask) (requestedMode mode mask) (path.length + 1)
    (path ++ [0]) 0 files

/-! ### The cuts -/

/-- The part of a path up to the end of its first run of slashes. -/
def front (s : Bytes) : Bytes :=
  s.takeWhile (fun b ↦ b != slash) ++ (s.dropWhile fun b ↦ b != slash).takeWhile fun b ↦ b == slash

/-- What comes behind that run. -/
def behind (s : Bytes) : Bytes :=
  (s.dropWhile fun b ↦ b != slash).dropWhile fun b ↦ b == slash

/-- The prefixes of a path, begun with `done`, that end with a slash and have another component
behind them. -/
def parents (done : Bytes) : Bytes → List Bytes
  | [] => []
  | [_] => []
  | b :: c :: s =>
    if b = slash ∧ c ≠ slash then (done ++ [b]) :: parents (done ++ [b]) (c :: s)
    else parents (done ++ [b]) (c :: s)

/-- A directory on the way: it is made, or it is there. -/
def ensure (calls : FileCalls σ) (umask : ℕ) (files : σ) (path : Bytes) : Option σ :=
  let made := calls.mkdir path 0o777 umask files
  if made.1 = none then some made.2
  else if (made.1 = some .eexist ∨ made.1 = some .eisdir) ∧
      calls.stat path made.2 = some .directory then some made.2
  else none

variable {calls : FileCalls σ} {mask umask mode rounds : ℕ} {done s w : Bytes} {files : σ}

/-- The two parts of a path. -/
theorem front_append_behind (s : Bytes) : front s ++ behind s = s := by
  rw [front, behind, List.append_assoc, List.takeWhile_append_dropWhile,
    List.takeWhile_append_dropWhile]

/-- Behind a path begun with `done` too. -/
theorem append_front_append_behind (done s : Bytes) : done ++ front s ++ behind s = done ++ s := by
  rw [List.append_assoc, front_append_behind]

/-- With nothing behind the cut it stands at the end. -/
theorem front_of_behind (h : behind s = []) : front s = s := by
  have hsplit := front_append_behind s
  rwa [h, List.append_nil] at hsplit

/-- A byte before the first slash. -/
theorem front_cons_of_ne {b : UInt8} (hb : b ≠ slash) :
    front (b :: s) = b :: front s ∧ behind (b :: s) = behind s := by
  have hne : (b != slash) = true := bne_iff_ne.mpr hb
  simp [front, behind, hne]

/-- A slash before another one. -/
theorem front_slash_slash :
    front (slash :: slash :: s) = slash :: front (slash :: s) ∧
      behind (slash :: slash :: s) = behind (slash :: s) := by
  simp [front, behind]

/-- A slash before a component. -/
theorem front_slash_of_ne {c : UInt8} (hc : c ≠ slash) :
    front (slash :: c :: s) = [slash] ∧ behind (slash :: c :: s) = c :: s := by
  simp [front, behind, hc]

/-- The first of the parents ends where the cut is, and the others are those of the rest. -/
theorem parents_eq (done s : Bytes) :
    parents done s = if behind s = [] then []
      else (done ++ front s) :: parents (done ++ front s) (behind s) := by
  induction s generalizing done with
  | nil => rfl
  | cons b s ih =>
    cases s with
    | nil =>
      have hnil : behind [b] = [] := by
        by_cases hb : b = slash <;> simp [behind, hb]
      rw [if_pos hnil]
      rfl
    | cons c s =>
      rw [parents]
      by_cases hb : b = slash
      · subst hb
        by_cases hc : c = slash
        · subst hc
          obtain ⟨hfront, hbehind⟩ := @front_slash_slash s
          rw [if_neg (by simp), ih, hfront, hbehind, List.append_assoc, List.singleton_append]
        · obtain ⟨hfront, hbehind⟩ := @front_slash_of_ne s c hc
          rw [if_pos ⟨rfl, hc⟩, hfront, hbehind, if_neg (List.cons_ne_nil c s)]
      · obtain ⟨hfront, hbehind⟩ := @front_cons_of_ne (c :: s) b hb
        rw [if_neg (by simp [hb]), ih, hfront, hbehind, List.append_assoc, List.singleton_append]

/-- The first byte behind a cut is the nul only at the end of the path. -/
theorem headD_behind (hs : (0 : UInt8) ∉ s) : (behind s).headD 0 = 0 ↔ behind s = [] := by
  cases hbehind : behind s with
  | nil => simp
  | cons b t =>
    have hb : b ∈ s := by
      rw [← front_append_behind s, hbehind]
      simp
    have hzero : b ≠ 0 := fun h ↦ hs (h ▸ hb)
    simpa using hzero

/-- The byte behind a prefix of the buffer. -/
theorem getD_length (x y : Bytes) : (x ++ y).getD x.length 0 = y.headD 0 := by
  cases y <;> simp

/-- The first loop of a cut stops at the first slash or at the nul. -/
theorem takeWhile_component (hs : (0 : UInt8) ∉ s) :
    (s ++ [0]).takeWhile (fun b ↦ b != 0 && b != slash) = s.takeWhile fun b ↦ b != slash := by
  induction s with
  | nil => rfl
  | cons b s ih =>
    obtain ⟨hb, hrest⟩ := List.ne_and_not_mem_of_not_mem_cons hs
    have hzero : (b != 0) = true := bne_iff_ne.mpr hb.symm
    rw [List.cons_append, List.takeWhile_cons, List.takeWhile_cons, hzero, Bool.true_and, ih hrest]

/-- The second loop of a cut stops behind the slashes. -/
theorem takeWhile_slashes (s : Bytes) :
    (s ++ [0]).takeWhile (fun b ↦ b == slash) = s.takeWhile fun b ↦ b == slash := by
  induction s with
  | nil => rfl
  | cons b s ih => rw [List.cons_append, List.takeWhile_cons, List.takeWhile_cons, ih]

/-- What the cut does to the buffer. -/
theorem nextCut_eq (done : Bytes) (hs : (0 : UInt8) ∉ s) :
    nextCut (done ++ (s ++ [0])) done.length =
      ((behind s).headD 0, done ++ front s ++ 0 :: (behind s ++ [0]).tail,
        (done ++ front s).length) := by
  obtain ⟨w, hw⟩ : ∃ w, s.takeWhile (fun b ↦ b != slash) = w := ⟨_, rfl⟩
  obtain ⟨r, hr⟩ : ∃ r, s.dropWhile (fun b ↦ b != slash) = r := ⟨_, rfl⟩
  have hsplit : s = w ++ r := by rw [← hw, ← hr, List.takeWhile_append_dropWhile]
  have hfront : front s = w ++ r.takeWhile fun b ↦ b == slash := by rw [front, hw, hr]
  have hbehind : behind s = r.dropWhile fun b ↦ b == slash := by rw [behind, hr]
  have hbuf : done ++ (s ++ [0]) = (done ++ w) ++ (r ++ [0]) := by rw [hsplit]; simp
  have hfirst : ((done ++ (s ++ [0])).drop done.length).takeWhile
      (fun b ↦ b != 0 && b != slash) = w := by
    rw [List.drop_left, takeWhile_component hs, hw]
  have hget : (done ++ (s ++ [0])).getD (done.length + w.length) 0 = (r ++ [0]).headD 0 := by
    rw [hbuf, ← List.length_append, getD_length]
  rw [nextCut]
  simp only [hfirst, hget]
  cases r with
  | nil =>
    -- the path ends with this component
    rw [List.append_nil] at hsplit
    have hnil : behind s = [] := hbehind
    have hall : front s = s := by rw [hfront, hsplit]; simp
    rw [if_neg (by decide), hall, hnil, hsplit]
    simp
  | cons b r =>
    obtain rfl : b = slash := by
      have hhead := List.head?_dropWhile_not (fun b ↦ b != slash) s
      rw [hr] at hhead
      simpa using hhead
    obtain ⟨sl, hsl⟩ : ∃ sl, (slash :: r).takeWhile (fun b ↦ b == slash) = sl := ⟨_, rfl⟩
    obtain ⟨t, ht⟩ : ∃ t, (slash :: r).dropWhile (fun b ↦ b == slash) = t := ⟨_, rfl⟩
    have hrest : slash :: r = sl ++ t := by rw [← hsl, ← ht, List.takeWhile_append_dropWhile]
    have hsecond : ((done ++ (s ++ [0])).drop (done.length + w.length)).takeWhile
        (fun b ↦ b == slash) = sl := by
      rw [hbuf, ← List.length_append, List.drop_left, takeWhile_slashes, hsl]
    have hbuf' : done ++ (s ++ [0]) = (done ++ front s) ++ (t ++ [0]) := by
      rw [hbuf, hfront, hsl, hrest]
      simp
    have hlen : done.length + w.length + sl.length = (done ++ front s).length := by
      rw [hfront, hsl, List.length_append, List.length_append, Nat.add_assoc]
    rw [if_pos (by rfl), hsecond, hlen, hbuf', getD_length, hbehind, ht,
      List.set_append_right _ _ (le_refl _), Nat.sub_self]
    cases t <;> rfl

/-- The byte is put back. -/
theorem set_cut (x t : Bytes) :
    (x ++ (0 : UInt8) :: (t ++ [0]).tail).set x.length (t.headD 0) = x ++ (t ++ [0]) := by
  rw [List.set_append_right _ _ (le_refl _), Nat.sub_self]
  cases t <;> rfl

/-- The string in a cut buffer. -/
theorem text_cut {x : Bytes} (hx : (0 : UInt8) ∉ x) (t : Bytes) :
    text (x ++ (0 : UInt8) :: t) = x := by
  have hall : ∀ b ∈ x, (b != 0) = true := fun b hb ↦ bne_iff_ne.mpr fun h ↦ hx (h ▸ hb)
  rw [text, List.takeWhile_append_of_pos hall]
  simp

/-- The path so far has no nul. -/
theorem notMem_front (hs : (0 : UInt8) ∉ done ++ s) : (0 : UInt8) ∉ done ++ front s := by
  intro h
  rw [← append_front_append_behind] at hs
  exact hs (List.mem_append_left _ h)

/-! ### The rounds -/

/-- The last round: the call for the whole path, with nothing cut off. -/
def finish (calls : FileCalls σ) (recur : Bool) (mask umask mode : ℕ) (path : Bytes) (files : σ) :
    MadeDirectory σ :=
  let made := calls.mkdir path 0o777 umask files
  if made.1 = none then
    let changed := calls.chmod path mode made.2
    if changed.1 = none then ⟨0, path ++ [0], mask, changed.2, none⟩
    else ⟨-1, path ++ [0], mask, changed.2, some (str "set permissions of", path)⟩
  else if (made.1 ≠ some .eexist ∧ made.1 ≠ some .eisdir) ∨ recur = false ∨
      calls.stat path made.2 ≠ some .directory then
    ⟨-1, path ++ [0], mask, made.2, some (str "create", path)⟩
  else ⟨0, path ++ [0], mask, made.2, none⟩

/-- Without a cut there is one round. -/
theorem makeLoop_plain (hs : (0 : UInt8) ∉ s) :
    makeLoop calls false mask umask mode (rounds + 1) (s ++ [0]) 0 files =
      some (finish calls false mask umask mode s files) := by
  have htext : text (s ++ [0]) = s := text_cut hs []
  simp only [makeLoop, finish, Bool.false_eq_true, if_false, htext, if_true]
  split
  · split <;> rfl
  · simp

/-- The round at the end of the path. -/
theorem makeLoop_last (hs : (0 : UInt8) ∉ done ++ s) (hbehind : behind s = []) :
    makeLoop calls true mask umask mode (rounds + 1) (done ++ (s ++ [0])) done.length files =
      some (finish calls true mask umask mode (done ++ s) files) := by
  have hzero : (0 : UInt8) ∉ s := fun h ↦ hs (List.mem_append_right done h)
  have hcut := nextCut_eq done hzero
  have htext : text (done ++ s ++ [0]) = done ++ s := text_cut hs []
  rw [hbehind, front_of_behind hbehind] at hcut
  simp only [List.headD_nil, List.nil_append, List.tail_cons] at hcut
  simp only [makeLoop, finish, if_true, hcut, htext]
  split
  · split <;> rfl
  · split <;> rfl

/-- A round on the way: the directory is ensured and the byte is put back. -/
theorem makeLoop_next {files' : σ} (hs : (0 : UInt8) ∉ done ++ s) (hbehind : behind s ≠ [])
    (hensure : ensure calls umask files (done ++ front s) = some files') :
    makeLoop calls true mask umask mode (rounds + 1) (done ++ (s ++ [0])) done.length files =
      makeLoop calls true mask umask mode rounds (done ++ front s ++ (behind s ++ [0]))
        (done ++ front s).length files' := by
  have hzero : (0 : UInt8) ∉ s := fun h ↦ hs (List.mem_append_right done h)
  have hpath : (0 : UInt8) ∉ done ++ front s := notMem_front hs
  have hchar : (behind s).headD 0 ≠ 0 := fun h ↦ hbehind ((headD_behind hzero).mp h)
  simp only [makeLoop, if_true, nextCut_eq done hzero, text_cut hpath, if_neg hchar, set_cut]
  simp only [ensure] at hensure
  split at hensure
  · next hmade =>
    obtain rfl := Option.some.inj hensure
    rw [if_pos hmade]
  · next hmade =>
    split at hensure
    · next hthere =>
      obtain rfl := Option.some.inj hensure
      have hgo : ¬ (((calls.mkdir (done ++ front s) 0o777 umask files).1 ≠ some .eexist ∧
          (calls.mkdir (done ++ front s) 0o777 umask files).1 ≠ some .eisdir) ∨ true = false ∨
          calls.stat (done ++ front s) (calls.mkdir (done ++ front s) 0o777 umask files).2 ≠
            some .directory) := by
        rintro (⟨hexist, hisdir⟩ | hrecur | hstat)
        · exact hthere.1.elim hexist hisdir
        · cases hrecur
        · exact hstat hthere.2
      rw [if_neg hmade, if_neg hgo]
    · cases hensure

/-- A round on the way that fails: the buffer stays cut. -/
theorem makeLoop_blocked (hs : (0 : UInt8) ∉ done ++ s)
    (hensure : ensure calls umask files (done ++ front s) = none) :
    makeLoop calls true mask umask mode (rounds + 1) (done ++ (s ++ [0])) done.length files =
      some ⟨-1, done ++ front s ++ 0 :: (behind s ++ [0]).tail, mask,
        (calls.mkdir (done ++ front s) 0o777 umask files).2,
        some (str "create", done ++ front s)⟩ := by
  have hzero : (0 : UInt8) ∉ s := fun h ↦ hs (List.mem_append_right done h)
  have hpath : (0 : UInt8) ∉ done ++ front s := notMem_front hs
  simp only [makeLoop, if_true, nextCut_eq done hzero, text_cut hpath]
  simp only [ensure] at hensure
  split at hensure
  · cases hensure
  · next hmade =>
    split at hensure
    · cases hensure
    · next hthere =>
      rw [if_neg hmade, if_pos]
      by_contra hgo
      simp only [not_or, ne_eq, not_and_or, not_not] at hgo
      exact hthere ⟨hgo.1, hgo.2.2⟩

/-- A cut moves on. -/
theorem front_ne_nil (hs : s ≠ []) : front s ≠ [] := by
  intro hnil
  cases s with
  | nil => exact hs rfl
  | cons b s =>
    by_cases hb : b = slash <;> simp [front, hb] at hnil

/-- A cut leaves less behind it. -/
theorem length_behind_lt (h : behind s ≠ []) : (behind s).length < s.length := by
  have hfront : front s ≠ [] := front_ne_nil fun hs ↦ h (by rw [hs]; rfl)
  have hlen := congrArg List.length (front_append_behind s)
  have hpos := List.length_pos_of_ne_nil hfront
  rw [List.length_append] at hlen
  omega

/-- The run: with all directories on the way ensured, the loop comes to its last round; otherwise it
stops at a cut. -/
theorem makeLoop_run (hs : (0 : UInt8) ∉ done ++ s) (hrounds : s.length < rounds) :
    (∀ files', (parents done s).foldlM (ensure calls umask) files = some files' →
      makeLoop calls true mask umask mode rounds (done ++ (s ++ [0])) done.length files =
        some (finish calls true mask umask mode (done ++ s) files')) ∧
    ((parents done s).foldlM (ensure calls umask) files = none →
      ∃ (pre t : Bytes) (files' : σ), t ≠ [] ∧ done ++ s = pre ++ t ∧
        makeLoop calls true mask umask mode rounds (done ++ (s ++ [0])) done.length files =
          some ⟨-1, pre ++ (0 : UInt8) :: (t ++ [0]).tail, mask, files',
            some (str "create", pre)⟩) := by
  induction rounds generalizing done s files with
  | zero => omega
  | succ rounds ih =>
    rw [parents_eq]
    by_cases hbehind : behind s = []
    · rw [if_pos hbehind]
      constructor
      · intro files' hfiles
        obtain rfl : files = files' := Option.some.inj hfiles
        exact makeLoop_last hs hbehind
      · intro hnone
        cases hnone
    · rw [if_neg hbehind, List.foldlM_cons]
      have hsplit := (append_front_append_behind done s).symm
      cases hensure : ensure calls umask files (done ++ front s) with
      | none =>
        refine ⟨fun files' hfiles ↦ (by cases hfiles), fun _ ↦ ?_⟩
        exact ⟨_, _, _, hbehind, hsplit, makeLoop_blocked hs hensure⟩
      | some files₁ =>
        have hlen := length_behind_lt hbehind
        rw [makeLoop_next hs hbehind hensure, hsplit]
        exact ih (hsplit ▸ hs) (by omega)

/-- The run from the start of the path. -/
theorem makeDirectory_run {path : Bytes} (hpath : (0 : UInt8) ∉ path) (request : Option ℕ) :
    (∀ files', (parents [] path).foldlM (ensure calls (wayMask request mask)) files = some files' →
      makeDirectory calls path request true mask files =
        some (finish calls true mask (wayMask request mask) (requestedMode request mask) path
          files')) ∧
    ((parents [] path).foldlM (ensure calls (wayMask request mask)) files = none →
      ∃ (pre t : Bytes) (files' : σ), t ≠ [] ∧ path = pre ++ t ∧
        makeDirectory calls path request true mask files =
          some ⟨-1, pre ++ (0 : UInt8) :: (t ++ [0]).tail, mask, files',
            some (str "create", pre)⟩) :=
  @makeLoop_run σ calls mask (wayMask request mask) (requestedMode request mask)
    (path.length + 1) [] path files hpath (Nat.lt_succ_self _)

/-- The last round leaves the buffer and the mask of the caller. -/
theorem finish_restores (calls : FileCalls σ) (recur : Bool) (mask umask mode : ℕ) (path : Bytes)
    (files : σ) :
    (finish calls recur mask umask mode path files).buf = path ++ [0] ∧
      (finish calls recur mask umask mode path files).umask = mask := by
  simp only [finish]
  split
  · split <;> exact ⟨rfl, rfl⟩
  · split <;> exact ⟨rfl, rfl⟩

/-- A buffer that is still cut is not the path. -/
theorem cut_ne {pre t : Bytes} (hs : (0 : UInt8) ∉ pre ++ t) (ht : t ≠ []) :
    pre ++ (0 : UInt8) :: (t ++ [0]).tail ≠ (pre ++ t) ++ [0] := by
  intro heq
  rw [List.append_assoc] at heq
  have htail := List.append_cancel_left heq
  cases t with
  | nil => exact ht rfl
  | cons b t =>
    have hb : (0 : UInt8) = b := (List.cons.inj htail).1
    exact hs (hb ▸ List.mem_append_right pre List.mem_cons_self)

/-- The function comes to an end, and when it fails it leaves the buffer and the mask of its caller
as they were exactly if all directories on the way could be made or were there; without
`FILEUTILS_RECUR` it does so always. -/
theorem makeDirectory_restores_iff (calls : FileCalls σ) {path : Bytes}
    (hpath : (0 : UInt8) ∉ path) (request : Option ℕ) (recur : Bool) (mask : ℕ) (files : σ) :
    ∃ r, makeDirectory calls path request recur mask files = some r ∧
      ((r.ret = -1 → r.buf = path ++ [0] ∧ r.umask = mask) ↔
        (recur = true →
          ((parents [] path).foldlM (ensure calls (wayMask request mask)) files).isSome)) := by
  cases recur with
  | false =>
    refine ⟨_, makeLoop_plain hpath, ?_, ?_⟩
    · intro _ hrecur
      cases hrecur
    · intro _ _
      exact finish_restores calls false mask _ _ path files
  | true =>
    cases hparents : (parents [] path).foldlM (ensure calls (wayMask request mask)) files with
    | none =>
      obtain ⟨pre, t, files', ht, hsplit, hloop⟩ := (makeDirectory_run hpath request).2 hparents
      refine ⟨_, hloop, ?_, ?_⟩
      · intro hkept
        rw [hsplit] at hpath hkept
        exact absurd (hkept rfl).1 (cut_ne hpath ht)
      · intro hall
        have hnone := hall rfl
        cases hnone
    | some files' =>
      refine ⟨_, (makeDirectory_run hpath request).1 files' hparents, ?_, ?_⟩
      · intro _ _
        rfl
      · intro _ _
        exact finish_restores calls true mask _ _ path files'

/-- A file system that is mounted read-only, with nothing in it but `/`. -/
def readOnly : FileCalls Unit where
  mkdir path _ _ files := (if path = [slash] then some .eexist else some (.other 30), files)
  stat path _ := if path = [slash] then some .directory else none
  chmod _ _ files := (some (.other 30), files)

/-- There the call for a directory in `/dev` leaves `/dev/` in the buffer of its caller. -/
theorem makeDirectory_cuts :
    (makeDirectory readOnly (str "/dev/pts") (some 0o40755) true 0 ()).map
        (fun r ↦ (r.ret, r.buf, r.umask)) =
      some (-1, str "/dev/" ++ 0 :: str "ts" ++ [0], 0) ∧
    str "/dev/" ++ 0 :: str "ts" ++ [0] ≠ str "/dev/pts" ++ [0] := by
  decide +kernel

/-- A directory in `/` fails in the last round, and the buffer is whole again. -/
theorem makeDirectory_restores_iff_root :
    ∃ r, makeDirectory readOnly (str "/pts") (some 0o40755) true 0 () = some r ∧
      ((r.ret = -1 → r.buf = str "/pts" ++ [0] ∧ r.umask = 0) ↔
        (true = true →
          ((parents [] (str "/pts")).foldlM
            (ensure readOnly (wayMask (some 0o40755) 0)) ()).isSome)) :=
  makeDirectory_restores_iff readOnly (by decide +kernel) (some 0o40755) true 0 ()

end MotionPie.Package.Makedevs
