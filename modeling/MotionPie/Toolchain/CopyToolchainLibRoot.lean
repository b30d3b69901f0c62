import MotionPie.Base.FileTree

/-!
# Copying a toolchain library with its links

`toolchain/helpers.mk:3-84`: `copy_toolchain_lib_root` "copies a toolchain library and its
symbolic links from the sysroot directory to the target directory". A link is copied by the last
name of its target, and the loop goes on with what `readlink -f` gives, which is behind all links
at once. So the destination holds the links that the pattern finds and the files behind them, and
a link between the two only when the pattern finds it too.

Names are words for the shell: no blanks and no wildcards in them.
-/

namespace MotionPie.Toolchain.CopyToolchainLibRoot

open Base FileTree

universe u v

variable {δ : Type u} {φ : Type v}

/-- A sysroot, with the listings of its directories; a file that is not regular has no content.
No chain of links is broken before its end. -/
structure Sysroot (δ : Type u) (φ : Type v) where
  tree : FileTree δ (Option φ)
  entries : Place → List Bytes
  mem_entries : ∀ p n, n ∈ entries p ↔ tree.node (n :: p) ≠ none
  /-- More links than any chain has. -/
  depth : ℕ
  chains : ∀ n p target, tree.node (n :: p) = some (.link target) →
    ∀ e, tree.walk true depth p [n] ≠ .broken e

/-- What a name of the destination stands for. -/
inductive Entry (φ : Type v)
  | link (target : Bytes)
  | file (content : φ)
  | other
  deriving DecidableEq

/-- The destination, `$(TARGET_DIR)/$DESTDIR`. -/
abbrev Dest (φ : Type v) := Bytes → Option (Entry φ)

/-- The destination with another entry under a name; the former one goes with `rm -fr`. -/
def Dest.set (dest : Dest φ) (n : Bytes) (e : Entry φ) : Dest φ :=
  fun m ↦ if m = n then some e else dest m

/-- `basename`. -/
def basename (s : Bytes) : Bytes :=
  let s' := s.rdropWhile (· == slash)
  if s' = [] then s.take 1 else s'.rtakeWhile (· != slash)

/-- `basename` of a place. -/
def nameOf (p : Place) : Bytes := p.head?.getD [slash]

/-- `readlink -f`: the place behind all links, also when nothing stands there. -/
def Sysroot.final (s : Sysroot δ φ) (p : Place) : Place :=
  match s.tree.walk true s.depth p.tail [nameOf p] with
  | .node q => q
  | .absent q => q
  | .broken _ => p

/-! ### The search -/

/-- The directories that are searched, `helpers.mk:52-57`; `external` is
`$(TOOLCHAIN_EXTERNAL_PREFIX)`. -/
def searchDirs (external archSysrootDir supportLibDir archLibDir : Bytes) : List Bytes :=
  [archSysrootDir ++ str "/" ++ archLibDir ++ str "/" ++ external,
    archSysrootDir ++ str "/usr/" ++ external ++ str "/" ++ archLibDir,
    archSysrootDir ++ str "/" ++ archLibDir,
    archSysrootDir ++ str "/usr/" ++ archLibDir] ++
    if supportLibDir = [] then [] else [supportLibDir]

/-- `find $dir -maxdepth 1 -name "$LIB"`: the directory itself and its entries. -/
def Sysroot.find (s : Sysroot δ φ) (lib : Bytes → Bool) (dir : Bytes) : List Place :=
  match s.tree.walk false s.depth [] (components dir) with
  | .node p =>
    (if lib (nameOf p) then [p] else []) ++
      if s.tree.IsDir p then ((s.entries p).filter lib).map (· :: p) else []
  | _ => []

/-- `LIBSPATH`, `helpers.mk:52-62`: what is found in the first directory that has a match. -/
def Sysroot.libsPath (s : Sysroot δ φ) (lib : Bytes → Bool) (dirs : List Bytes) : List Place :=
  ((dirs.map (s.find lib)).find? (· ≠ [])).getD []

/-! ### The copy -/

/-- One round of the inner loop, `helpers.mk:66-80`: the destination and the `LIBPATH` of the next
round; nothing for `exit -1`. -/
def Sysroot.round (s : Sysroot δ φ) (dest : Dest φ) (libPath : Place) :
    Option (Dest φ × Option Place) :=
  match s.tree.node libPath with
  | some (.link target) =>
    some (dest.set (nameOf libPath) (.link (basename target)), some (s.final libPath))
  | some (.file (some content)) => some (dest.set (nameOf libPath) (.file content), none)
  | _ => none

/-- The inner loop, at most so many rounds. -/
def Sysroot.rounds (s : Sysroot δ φ) : ℕ → Dest φ → Place → Option (Dest φ)
  | 0, _, _ => none
  | n + 1, dest, libPath =>
    match s.round dest libPath with
    | none => none
    | some (dest, none) => some dest
    | some (dest, some libPath) => s.rounds n dest libPath

/-- The inner loop; `rounds_eq` says that it has no more than two rounds. -/
def Sysroot.copyLib (s : Sysroot δ φ) (dest : Dest φ) (libPath : Place) : Option (Dest φ) :=
  s.rounds 2 dest libPath

/-- `copy_toolchain_lib_root`, `helpers.mk:45-84`; nothing for `exit -1`. -/
def copyToolchainLibRoot (s : Sysroot δ φ)
    (external archSysrootDir supportLibDir archLibDir : Bytes) (lib : Bytes → Bool)
    (dest : Dest φ) : Option (Dest φ) :=
  (s.libsPath lib (searchDirs external archSysrootDir supportLibDir archLibDir)).foldlM
    s.copyLib dest

/-! ### What one library leaves -/

/-- The file that a path leads to: its content when it is regular. -/
def Sysroot.content (s : Sysroot δ φ) (p : Place) : Option φ :=
  match s.tree.node (s.final p) with
  | some (.file content) => content
  | _ => none

/-- The copy of what stands at a place. -/
def Sysroot.entry (s : Sysroot δ φ) (p : Place) : Option (Entry φ) :=
  match s.tree.node p with
  | some (.link target) => some (.link (basename target))
  | some (.file content) => content.map .file
  | _ => none

variable {s : Sysroot δ φ} {p q : Place} {dest old new : Dest φ} {c : φ} {target n m : Bytes}
  {paths : List Place}

/-- An entry after a write. -/
theorem Dest.set_apply (dest : Dest φ) (n m : Bytes) (e : Entry φ) :
    dest.set n e m = if m = n then some e else dest m := rfl

/-- The end of a chain at which something stands. -/
theorem final_of_node (h : s.tree.walk true s.depth p.tail [nameOf p] = .node q) :
    s.final p = q := by
  rw [Sysroot.final, h]

/-- The end of a chain at which nothing stands. -/
theorem final_of_absent (h : s.tree.walk true s.depth p.tail [nameOf p] = .absent q) :
    s.final p = q := by
  rw [Sysroot.final, h]

/-- A file is its own end. -/
theorem final_of_file {content : Option φ} (h : s.tree.node p = some (.file content)) :
    s.final p = p := by
  cases p with
  | nil =>
    obtain ⟨a, ha⟩ := s.tree.root
    rw [ha] at h
    cases h
  | cons n p => exact final_of_node (walk_file (s.tree.name n p (by simp [h])) h)

/-- A directory has no content. -/
theorem content_of_isDir (h : s.tree.IsDir p) : s.content p = none := by
  obtain ⟨a, ha⟩ := h
  cases p with
  | nil =>
    have hroot : s.tree.node [[slash]] = none := by
      by_contra hnode
      exact (s.tree.name [slash] [] hnode).2.1 List.mem_cons_self
    have hwalk : s.tree.walk true s.depth [] [[slash]] = .absent [[slash]] := by
      cases s.depth <;> rw [walk, walkFrom, if_neg (by decide), if_neg (by decide), hroot] <;> rfl
    rw [Sysroot.content, final_of_absent hwalk, hroot]
  | cons n p =>
    have hwalk : s.tree.walk true s.depth p [n] = .node (n :: p) := by
      rw [walk_dir (IsDir.isEntryName ⟨a, ha⟩) ⟨a, ha⟩, walk_nil]
    rw [Sysroot.content, final_of_node hwalk, ha]

/-- What stands behind all links is a regular file when it has a content. -/
theorem node_final (hcontent : s.content p = some c) :
    s.tree.node (s.final p) = some (.file (some c)) := by
  unfold Sysroot.content at hcontent
  split at hcontent
  · next content h => rw [h, hcontent]
  · cases hcontent

/-- What is found and leads to a regular file is a link or the file itself. -/
theorem link_or_file (hnode : s.tree.node p ≠ none) (hcontent : s.content p = some c) :
    (∃ target, s.tree.node p = some (.link target)) ∨
      s.tree.node p = some (.file (some c)) ∧ s.final p = p := by
  cases h : s.tree.node p with
  | none => exact absurd h hnode
  | some x =>
    cases x with
    | dir a =>
      rw [content_of_isDir ⟨a, h⟩] at hcontent
      cases hcontent
    | link target => exact .inl ⟨target, rfl⟩
    | file content =>
      have hfinal := final_of_file h
      have hcopy := node_final hcontent
      rw [hfinal, h] at hcopy
      exact .inr ⟨hcopy, hfinal⟩

/-- The copy of a link. -/
theorem entry_of_link (h : s.tree.node p = some (.link target)) :
    s.entry p = some (.link (basename target)) := by
  rw [Sysroot.entry, h]

/-- The copy of a file. -/
theorem entry_of_file (h : s.tree.node p = some (.file (some c))) :
    s.entry p = some (.file c) := by
  rw [Sysroot.entry, h]
  rfl

/-- A round for a file is the last one. -/
theorem rounds_of_file (k : ℕ) (h : s.tree.node p = some (.file (some c))) :
    s.rounds (k + 1) dest p = some (dest.set (nameOf p) (.file c)) := by
  rw [Sysroot.rounds, Sysroot.round, h]

/-- A round for a link goes on with the end of its chain. -/
theorem rounds_of_link (k : ℕ) (h : s.tree.node p = some (.link target)) :
    s.rounds (k + 1) dest p =
      s.rounds k (dest.set (nameOf p) (.link (basename target))) (s.final p) := by
  rw [Sysroot.rounds, Sysroot.round, h]

/-- A link is copied with the file behind it, and a file is copied: no round is left after the
second one. -/
theorem rounds_eq (k : ℕ) (dest : Dest φ) (hnode : s.tree.node p ≠ none)
    (hcontent : s.content p = some c) :
    ∃ e, s.entry p = some e ∧ s.rounds (k + 2) dest p =
      some ((dest.set (nameOf p) e).set (nameOf (s.final p)) (.file c)) := by
  rcases link_or_file hnode hcontent with ⟨target, hlink⟩ | ⟨hfile, hfinal⟩
  · refine ⟨_, entry_of_link hlink, ?_⟩
    rw [rounds_of_link (k + 1) hlink, rounds_of_file k (node_final hcontent)]
  · refine ⟨_, entry_of_file hfile, ?_⟩
    have htwice : (dest.set (nameOf p) (.file c)).set (nameOf p) (.file c) =
        dest.set (nameOf p) (.file c) := by
      funext m
      simp only [Dest.set_apply]
      split <;> rfl
    rw [rounds_of_file (k + 1) hfile, hfinal, htwice]

/-! ### What stays under a name -/

/-- The copy of a path that is found puts something under this name. -/
def Sysroot.Writes (s : Sysroot δ φ) (p : Place) (n : Bytes) : Prop :=
  nameOf p = n ∨ nameOf (s.final p) = n

/-- Among the paths that are found, in their order, the last one that puts something under the
name `n` leaves the copy of `q` there: of the end of its chain, or of itself. -/
def Sysroot.Lasts (s : Sysroot δ φ) (paths : List Place) (n : Bytes) (q : Place) : Prop :=
  ∃ pre p post, paths = pre ++ p :: post ∧ (∀ p' ∈ post, ¬ s.Writes p' n) ∧
    (nameOf (s.final p) = n ∧ q = s.final p ∨ nameOf (s.final p) ≠ n ∧ nameOf p = n ∧ q = p)

/-- What stays is decided by the last path, when it writes under the name. -/
theorem lasts_concat : s.Lasts (paths ++ [p]) n q ↔
    (nameOf (s.final p) = n ∧ q = s.final p ∨ nameOf (s.final p) ≠ n ∧ nameOf p = n ∧ q = p) ∨
      ¬ s.Writes p n ∧ s.Lasts paths n q := by
  constructor
  · rintro ⟨pre, p', post, hpaths, hpost, hlast⟩
    rcases List.eq_nil_or_concat post with rfl | ⟨post, p'', rfl⟩
    · obtain ⟨-, hp⟩ := List.append_inj' hpaths rfl
      obtain rfl := List.head_eq_of_cons_eq hp
      exact .inl hlast
    · rw [List.concat_eq_append, ← List.cons_append, ← List.append_assoc] at hpaths
      obtain ⟨hinit, hp⟩ := List.append_inj' hpaths rfl
      obtain rfl := List.head_eq_of_cons_eq hp
      exact .inr ⟨hpost p (by simp), pre, p', post, hinit,
        fun x hx ↦ hpost x (by simp [hx]), hlast⟩
  · rintro (hlast | ⟨hp, pre, p', post, rfl, hpost, hlast⟩)
    · exact ⟨paths, p, [], rfl, by simp, hlast⟩
    · refine ⟨pre, p', post ++ [p], by simp, fun x hx ↦ ?_, hlast⟩
      rcases List.mem_append.mp hx with hx | hx
      · exact hpost x hx
      · obtain rfl := List.mem_singleton.mp hx
        exact hp

/-- Under a name that is written the copy of one place stays, and other names are left alone. -/
theorem foldlM_copyLib (h : ∀ p ∈ paths, s.tree.node p ≠ none ∧ ∃ c, s.content p = some c)
    (old : Dest φ) :
    ∃ new, paths.foldlM s.copyLib old = some new ∧ ∀ n,
      (∃ q, s.Lasts paths n q ∧ (∀ q', s.Lasts paths n q' → q' = q) ∧ new n = s.entry q) ∨
        (∀ q, ¬ s.Lasts paths n q) ∧ new n = old n := by
  induction paths using List.reverseRecOn with
  | nil =>
    refine ⟨old, rfl, fun n ↦ .inr ⟨?_, rfl⟩⟩
    rintro q ⟨pre, p, post, hnil, -⟩
    simp at hnil
  | append_singleton paths p ih =>
    obtain ⟨new, hnew, hstays⟩ := ih fun p' hp' ↦ h p' (List.mem_append_left _ hp')
    obtain ⟨hnode, c, hcontent⟩ := h p (by simp)
    obtain ⟨e, hentry, hcopy⟩ := rounds_eq 0 new hnode hcontent
    refine ⟨(new.set (nameOf p) e).set (nameOf (s.final p)) (.file c), ?_, fun n ↦ ?_⟩
    · rw [List.foldlM_append, hnew, Option.bind_eq_bind, Option.bind_some, List.foldlM_cons,
        Sysroot.copyLib, hcopy]
      rfl
    simp only [lasts_concat, Dest.set_apply]
    by_cases hfinal : n = nameOf (s.final p)
    · refine .inl ⟨s.final p, .inl (.inl ⟨hfinal.symm, rfl⟩), ?_, ?_⟩
      · rintro q ((⟨-, hq⟩ | ⟨hne, -⟩) | ⟨hno, -⟩)
        · exact hq
        · exact absurd hfinal.symm hne
        · exact absurd (.inr hfinal.symm) hno
      · rw [if_pos hfinal, entry_of_file (node_final hcontent)]
    rw [if_neg hfinal]
    by_cases hname : n = nameOf p
    · refine .inl ⟨p, .inl (.inr ⟨fun h ↦ hfinal h.symm, hname.symm, rfl⟩), ?_, ?_⟩
      · rintro q ((⟨hq, -⟩ | ⟨-, -, hq⟩) | ⟨hno, -⟩)
        · exact absurd hq.symm hfinal
        · exact hq
        · exact absurd (.inl hname.symm) hno
      · rw [if_pos hname, hentry]
    rw [if_neg hname]
    have hwrites : ¬ s.Writes p n := by
      rintro (hw | hw)
      · exact hname hw.symm
      · exact hfinal hw.symm
    have hlasts : ∀ q, ((nameOf (s.final p) = n ∧ q = s.final p ∨
        nameOf (s.final p) ≠ n ∧ nameOf p = n ∧ q = p) ∨ ¬ s.Writes p n ∧ s.Lasts paths n q) ↔
          s.Lasts paths n q := by
      intro q
      simp [hwrites, Ne.symm hfinal, Ne.symm hname]
    simp only [hlasts]
    exact hstays n

/-- A name that a found path writes keeps the copy of some place. -/
theorem exists_lasts (hp : p ∈ paths) (hn : s.Writes p n) : ∃ q, s.Lasts paths n q := by
  induction paths using List.reverseRecOn with
  | nil => cases hp
  | append_singleton paths p' ih =>
    simp only [lasts_concat]
    by_cases hfinal : nameOf (s.final p') = n
    · exact ⟨s.final p', .inl (.inl ⟨hfinal, rfl⟩)⟩
    by_cases hname : nameOf p' = n
    · exact ⟨p', .inl (.inr ⟨hfinal, hname, rfl⟩)⟩
    have hwrites : ¬ s.Writes p' n := fun h ↦ h.elim hname hfinal
    rcases List.mem_append.mp hp with hp | hp
    · obtain ⟨q, hq⟩ := ih hp
      exact ⟨q, .inr ⟨hwrites, hq⟩⟩
    · obtain rfl := List.mem_singleton.mp hp
      exact absurd hn hwrites

/-- What stays under a name is a link that was found there, or a regular file. -/
theorem Sysroot.Lasts.link_or_file (hlasts : s.Lasts paths n q)
    (h : ∀ p ∈ paths, s.tree.node p ≠ none ∧ ∃ c, s.content p = some c) :
    nameOf q = n ∧ ((q ∈ paths ∧ ∃ target, s.tree.node q = some (.link target)) ∨
      ∃ c, s.tree.node q = some (.file (some c))) := by
  obtain ⟨pre, p, post, rfl, -, ⟨hname, rfl⟩ | ⟨-, hname, rfl⟩⟩ := hlasts
  · obtain ⟨-, c, hcontent⟩ := h p (by simp)
    exact ⟨hname, .inr ⟨c, node_final hcontent⟩⟩
  · obtain ⟨hnode, c, hcontent⟩ := h q (by simp)
    rcases CopyToolchainLibRoot.link_or_file hnode hcontent with hlink | ⟨hfile, -⟩
    · exact ⟨hname, .inl ⟨by simp, hlink⟩⟩
    · exact ⟨hname, .inr ⟨c, hfile⟩⟩

/-! ### Closed chains -/

/-- Within the destination a name leads to a regular file with this content. -/
inductive Resolves (dest : Dest φ) : Bytes → φ → Prop
  | file {n : Bytes} {c : φ} (h : dest n = some (.file c)) : Resolves dest n c
  | link {n m : Bytes} {c : φ} (hm : IsEntryName m) (h : dest n = some (.link m))
    (hrest : Resolves dest m c) : Resolves dest n c

/-- A name leads to one content. -/
theorem Resolves.unique {c' : φ} (h : Resolves dest n c) (h' : Resolves dest n c') : c = c' := by
  induction h with
  | file h =>
    cases h' with
    | file h' => exact Entry.file.inj (Option.some.inj (h.symm.trans h'))
    | link _ h' _ => exact absurd (h.symm.trans h') (by simp)
  | link _ h _ ih =>
    cases h' with
    | file h' => exact absurd (h.symm.trans h') (by simp)
    | link _ h' hrest =>
      obtain rfl := Entry.link.inj (Option.some.inj (h.symm.trans h'))
      exact ih hrest

/-- A link of the destination leads where its target leads. -/
theorem Resolves.of_link (h : Resolves dest n c) (hlink : dest n = some (.link m)) :
    Resolves dest m c := by
  cases h with
  | file h => exact absurd (h.symm.trans hlink) (by simp)
  | link _ h hrest =>
    obtain rfl := Entry.link.inj (Option.some.inj (h.symm.trans hlink))
    exact hrest

/-- Every link that was found and is still there leads to a copy of the file that it leads to in
the sysroot. -/
def LinksClosed (s : Sysroot δ φ) (paths : List Place) (dest : Dest φ) : Prop :=
  ∀ p ∈ paths, ∀ target, s.tree.node p = some (.link target) →
    (∃ m, dest (nameOf p) = some (.link m)) → ∃ c, s.content p = some c ∧ Resolves dest (nameOf p) c

/-- The link that stays under the name `n` goes by the name `m`. -/
def Sysroot.GoesBy (s : Sysroot δ φ) (paths : List Place) (m n : Bytes) : Prop :=
  ∃ p target, s.Lasts paths n p ∧ s.tree.node p = some (.link target) ∧ m = basename target

/-- Each link that stays goes by a name under which the same file stays, or a link to it, and the
names do not run in a circle. -/
structure Covered (s : Sysroot δ φ) (paths : List Place) : Prop where
  met : ∀ n p target, s.Lasts paths n p → s.tree.node p = some (.link target) →
    ∃ q, s.Lasts paths (basename target) q ∧ s.content q = s.content p
  acyclic : WellFounded (s.GoesBy paths)

/-- A regular file is its own content. -/
theorem content_of_file (h : s.tree.node p = some (.file (some c))) : s.content p = some c := by
  rw [Sysroot.content, final_of_file h, h]

section Closing

variable (h : ∀ p ∈ paths, s.tree.node p ≠ none ∧ ∃ c, s.content p = some c)

include h

/-- Where each link leads to its file, it goes by a name under which that file stays. -/
theorem covered_of_linksClosed {new : Dest φ}
    (hstays : ∀ n, (∃ q, s.Lasts paths n q ∧ (∀ q', s.Lasts paths n q' → q' = q) ∧
      new n = s.entry q) ∨ (∀ q, ¬ s.Lasts paths n q) ∧ new n = none)
    (hclosed : LinksClosed s paths new) : Covered s paths := by
  have hentry : ∀ n q, s.Lasts paths n q → new n = s.entry q := by
    intro n q hq
    rcases hstays n with ⟨q', -, hunique, hnew⟩ | ⟨hnone, -⟩
    · rw [hnew, hunique q hq]
    · exact absurd hq (hnone q)
  have hlink : ∀ n p target, s.Lasts paths n p → s.tree.node p = some (.link target) →
      new n = some (.link (basename target)) ∧ ∃ c, s.content p = some c ∧ Resolves new n c := by
    intro n p target hp htarget
    have hnew : new n = some (.link (basename target)) :=
      (hentry n p hp).trans (entry_of_link htarget)
    obtain ⟨rfl, ⟨hmem, -⟩ | ⟨c, hfile⟩⟩ := hp.link_or_file h
    · exact ⟨hnew, hclosed p hmem target htarget ⟨_, hnew⟩⟩
    · exact absurd (htarget.symm.trans hfile) (by simp)
  refine ⟨fun n p target hp htarget ↦ ?_, ⟨fun n ↦ ?_⟩⟩
  · obtain ⟨hnew, c, hcontent, hresolves⟩ := hlink n p target hp htarget
    have hrest := hresolves.of_link hnew
    rcases hstays (basename target) with ⟨q, hq, -, hentryq⟩ | ⟨-, hnone⟩
    · refine ⟨q, hq, ?_⟩
      rcases (hq.link_or_file h).2 with ⟨-, target', htarget'⟩ | ⟨c', hfile⟩
      · obtain ⟨-, c', hcontent', hresolves'⟩ := hlink _ q target' hq htarget'
        rw [hcontent, hcontent', hresolves'.unique hrest]
      · have hcopy : Resolves new (basename target) c' :=
          .file (hentryq.trans (entry_of_file hfile))
        rw [hcontent, content_of_file hfile, hcopy.unique hrest]
    · cases hrest with
      | file h => exact absurd (hnone.symm.trans h) (by simp)
      | link _ h _ => exact absurd (hnone.symm.trans h) (by simp)
  · have hacc : ∀ n c, Resolves new n c → Acc (s.GoesBy paths) n := by
      intro n c hresolves
      induction hresolves with
      | file hfile =>
        refine ⟨_, ?_⟩
        rintro m ⟨p, target, hp, htarget, -⟩
        exact absurd (hfile.symm.trans (hlink _ p target hp htarget).1) (by simp)
      | link _ hm _ ih =>
        refine ⟨_, ?_⟩
        rintro m' ⟨p, target, hp, htarget, rfl⟩
        obtain rfl := Entry.link.inj
          (Option.some.inj (hm.symm.trans (hlink _ p target hp htarget).1))
        exact ih
    refine ⟨n, ?_⟩
    rintro m ⟨p, target, hp, htarget, rfl⟩
    obtain ⟨hnew, c, -, hresolves⟩ := hlink n p target hp htarget
    exact hacc _ c (hresolves.of_link hnew)

/-- Where each link goes by a name under which its file stays, it leads to that file. -/
theorem linksClosed_of_covered {old new : Dest φ}
    (hnames : ∀ p ∈ paths, ∀ q ∈ paths, nameOf p = nameOf q → p = q)
    (hstays : ∀ n, (∃ q, s.Lasts paths n q ∧ (∀ q', s.Lasts paths n q' → q' = q) ∧
      new n = s.entry q) ∨ (∀ q, ¬ s.Lasts paths n q) ∧ new n = old n)
    (hcovered : Covered s paths) : LinksClosed s paths new := by
  have hentry : ∀ n q, s.Lasts paths n q → new n = s.entry q := by
    intro n q hq
    rcases hstays n with ⟨q', -, hunique, hnew⟩ | ⟨hnone, -⟩
    · rw [hnew, hunique q hq]
    · exact absurd hq (hnone q)
  -- Along the names that links go by, each one leads to the file of its own path.
  have hleads : ∀ n p target, s.Lasts paths n p → s.tree.node p = some (.link target) →
      ∃ c, s.content p = some c ∧ Resolves new n c := by
    intro n
    induction n using hcovered.acyclic.induction with
    | _ n ih =>
      intro p target hp htarget
      obtain ⟨q, hq, hsame⟩ := hcovered.met n p target hp htarget
      have hlink : new n = some (.link (basename target)) :=
        (hentry n p hp).trans (entry_of_link htarget)
      obtain ⟨hname, hcases⟩ := hq.link_or_file h
      have hproper : IsEntryName (basename target) := by
        have hnode : s.tree.node q ≠ none := by
          rcases hcases with ⟨-, target', htarget'⟩ | ⟨c, hfile⟩
          · simp [htarget']
          · simp [hfile]
        cases q with
        | nil =>
          obtain ⟨a, ha⟩ := s.tree.root
          rcases hcases with ⟨-, target', htarget'⟩ | ⟨c, hfile⟩
          · exact absurd (ha.symm.trans htarget') (by simp)
          · exact absurd (ha.symm.trans hfile) (by simp)
        | cons m q => exact hname ▸ s.tree.name m q hnode
      rcases hcases with ⟨-, target', htarget'⟩ | ⟨c, hfile⟩
      · obtain ⟨c, hcontent, hresolves⟩ := ih _ ⟨p, target, hp, htarget, rfl⟩ q target' hq htarget'
        exact ⟨c, hsame ▸ hcontent, .link hproper hlink hresolves⟩
      · have hcopy : new (basename target) = some (.file c) :=
          (hentry _ q hq).trans (entry_of_file hfile)
        exact ⟨c, hsame ▸ content_of_file hfile, .link hproper hlink (.file hcopy)⟩
  rintro p hp target htarget ⟨m, hm⟩
  obtain ⟨q, hq⟩ := exists_lasts hp (.inl rfl : s.Writes p (nameOf p))
  obtain ⟨hname, ⟨hmem, -⟩ | ⟨c, hfile⟩⟩ := hq.link_or_file h
  · obtain rfl := hnames q hmem p hp hname
    exact hleads _ q target hq htarget
  · have hcopy := (hentry _ q hq).trans (entry_of_file hfile)
    exact absurd (hm.symm.trans hcopy) (by simp)

end Closing

/-! ### What is found -/

/-- All that is found is found in one directory: the directory itself or an entry of it. -/
theorem exists_start (s : Sysroot δ φ) (lib : Bytes → Bool) (dirs : List Bytes) :
    ∃ start, s.tree.node start ≠ none ∧ ∀ p ∈ s.libsPath lib dirs,
      p = start ∨ s.tree.IsDir start ∧ ∃ n ∈ s.entries start, p = n :: start := by
  have hroot : s.tree.node [] ≠ none := by
    obtain ⟨a, ha⟩ := s.tree.root
    simp [ha]
  unfold Sysroot.libsPath
  cases hfind : (dirs.map (s.find lib)).find? (· ≠ []) with
  | none => exact ⟨[], hroot, by simp⟩
  | some paths =>
    obtain ⟨dir, -, rfl⟩ := List.mem_map.mp (List.mem_of_find?_eq_some hfind)
    rw [Option.getD_some]
    unfold Sysroot.find
    split
    · next start hwalk =>
      refine ⟨start, node_of_walk s.tree.root hwalk, fun p hp ↦ ?_⟩
      rcases List.mem_append.mp hp with hp | hp
      · split at hp
        · exact .inl (List.mem_singleton.mp hp)
        · cases hp
      · split at hp
        · next hdir =>
          obtain ⟨n, hn, rfl⟩ := List.mem_map.mp hp
          exact .inr ⟨hdir, n, List.mem_of_mem_filter hn, rfl⟩
        · cases hp
    · exact ⟨[], hroot, by simp⟩

/-- What is found is there. -/
theorem node_of_mem_libsPath {lib : Bytes → Bool} {dirs : List Bytes}
    (hp : p ∈ s.libsPath lib dirs) : s.tree.node p ≠ none := by
  obtain ⟨start, hstart, hfound⟩ := exists_start s lib dirs
  rcases hfound p hp with rfl | ⟨-, n, hn, rfl⟩
  · exact hstart
  · exact (s.mem_entries start n).mp hn

/-- No two files that are found have one name. -/
theorem nameOf_inj_libsPath {lib : Bytes → Bool} {dirs : List Bytes}
    (hdir : ∀ p ∈ s.libsPath lib dirs, ¬ s.tree.IsDir p) :
    ∀ p ∈ s.libsPath lib dirs, ∀ q ∈ s.libsPath lib dirs, nameOf p = nameOf q → p = q := by
  intro p hp q hq hname
  obtain ⟨start, hstart, hfound⟩ := exists_start s lib dirs
  rcases hfound p hp with rfl | ⟨hisDir, n, -, rfl⟩
  · rcases hfound q hq with rfl | ⟨hisDir, -⟩
    · rfl
    · exact absurd hisDir (hdir p hp)
  · rcases hfound q hq with rfl | ⟨-, m, -, rfl⟩
    · exact absurd hisDir (hdir q hq)
    · obtain rfl : n = m := hname
      rfl

/-- For every sysroot, pattern and former content of the destination the chains are closed exactly
when each link that stays goes by a name under which its file stays. Any path that is found leads
to a regular file, since the function gives up with `exit -1` otherwise. -/
theorem linksClosed_iff (s : Sysroot δ φ)
    (external archSysrootDir supportLibDir archLibDir : Bytes) (lib : Bytes → Bool)
    (hregular : ∀ p ∈ s.libsPath lib (searchDirs external archSysrootDir supportLibDir archLibDir),
      (s.content p).isSome) :
    (∀ old, ∃ new, copyToolchainLibRoot s external archSysrootDir supportLibDir archLibDir lib old =
        some new ∧
      LinksClosed s
        (s.libsPath lib (searchDirs external archSysrootDir supportLibDir archLibDir)) new) ↔
      Covered s (s.libsPath lib (searchDirs external archSysrootDir supportLibDir archLibDir)) := by
  unfold copyToolchainLibRoot
  generalize hdirs : searchDirs external archSysrootDir supportLibDir archLibDir = dirs at *
  have hfound : ∀ p ∈ s.libsPath lib dirs, s.tree.node p ≠ none ∧ ∃ c, s.content p = some c :=
    fun p hp ↦ ⟨node_of_mem_libsPath hp, Option.isSome_iff_exists.mp (hregular p hp)⟩
  have hfile : ∀ p ∈ s.libsPath lib dirs, ¬ s.tree.IsDir p := by
    intro p hp hdir
    have hnone := content_of_isDir hdir
    obtain ⟨-, c, hcontent⟩ := hfound p hp
    exact absurd (hnone.symm.trans hcontent) (by simp)
  constructor
  · intro hall
    obtain ⟨new, hnew, hclosed⟩ := hall fun _ ↦ none
    obtain ⟨new', hnew', hstays⟩ := foldlM_copyLib hfound fun _ ↦ none
    obtain rfl := Option.some.inj (hnew.symm.trans hnew')
    exact covered_of_linksClosed hfound hstays hclosed
  · intro hcovered old
    obtain ⟨new, hnew, hstays⟩ := foldlM_copyLib hfound old
    exact ⟨new, hnew,
      linksClosed_of_covered hfound (nameOf_inj_libsPath hfile) hstays hcovered⟩

/-! ### A chain with a link in the middle -/

/-- The sysroot of a list of entries. -/
def Sysroot.ofList (a : δ) (l : List (Place × Node δ (Option φ))) (h : Rooted l) (depth : ℕ)
    (hchains : ∀ x ∈ l,
      ((FileTree.ofList a l h).walk true depth x.1.tail [x.1.headD []]).isBroken = false) :
    Sysroot δ φ where
  tree := FileTree.ofList a l h
  entries := names l
  mem_entries _ _ := mem_names
  depth := depth
  chains n p target hnode e hbroken := by
    have hmem : n ∈ names l p := (mem_names (a := a) (h := h)).mpr (by simp [hnode])
    obtain ⟨x, hx, hn⟩ := List.mem_map.mp hmem
    obtain ⟨hl, htail⟩ := List.mem_filter.mp hx
    have hwalk := hchains x hl
    rw [hn, decide_eq_true_eq.mp htail, hbroken] at hwalk
    cases hwalk

/-- `/s/lib` with `libfoo.so`, a link to `libfoo.so.1`, which is a link to `libfoo.so.1.2`. -/
def chainSysroot : Sysroot Unit ℕ :=
  .ofList () [([str "s"], .dir ()), ([str "lib", str "s"], .dir ()),
    ([str "libfoo.so", str "lib", str "s"], .link (str "libfoo.so.1")),
    ([str "libfoo.so.1", str "lib", str "s"], .link (str "libfoo.so.1.2")),
    ([str "libfoo.so.1.2", str "lib", str "s"], .file (some 7))] (by decide) 2 (by decide +kernel)

/-- The pattern `libfoo.so` leaves a link to `libfoo.so.1`, which is not copied. -/
theorem copyToolchainLibRoot_dangles :
    ¬ ∀ old, ∃ new, copyToolchainLibRoot chainSysroot (str "arm-linux") (str "/s") [] (str "lib")
        (· == str "libfoo.so") old = some new ∧
      LinksClosed chainSysroot (chainSysroot.libsPath (· == str "libfoo.so")
        (searchDirs (str "arm-linux") (str "/s") [] (str "lib"))) new := by
  intro hall
  obtain ⟨new, hnew, hclosed⟩ := hall fun _ ↦ none
  have hlink : new (str "libfoo.so") = some (.link (str "libfoo.so.1")) ∧
      new (str "libfoo.so.1") = none := by
    have hread : ((copyToolchainLibRoot chainSysroot (str "arm-linux") (str "/s") [] (str "lib")
        (· == str "libfoo.so") fun _ ↦ none).map fun new ↦
          (new (str "libfoo.so"), new (str "libfoo.so.1"))) =
        some (some (.link (str "libfoo.so.1")), none) := by decide +kernel
    rw [hnew] at hread
    exact Prod.mk.inj (Option.some.inj hread)
  obtain ⟨c, -, hresolves⟩ := hclosed [str "libfoo.so", str "lib", str "s"] (by decide +kernel)
    (str "libfoo.so.1") (by decide +kernel) ⟨_, hlink.1⟩
  cases hresolves.of_link hlink.1 with
  | file h => exact absurd (hlink.2.symm.trans h) (by simp)
  | link _ h _ => exact absurd (hlink.2.symm.trans h) (by simp)

/-- The pattern `libfoo.so` in the sysroot of a chain. -/
theorem linksClosed_iff_chain :
    (∀ old, ∃ new, copyToolchainLibRoot chainSysroot (str "arm-linux") (str "/s") [] (str "lib")
        (· == str "libfoo.so") old = some new ∧
      LinksClosed chainSysroot (chainSysroot.libsPath (· == str "libfoo.so")
        (searchDirs (str "arm-linux") (str "/s") [] (str "lib"))) new) ↔
      Covered chainSysroot (chainSysroot.libsPath (· == str "libfoo.so")
        (searchDirs (str "arm-linux") (str "/s") [] (str "lib"))) :=
  linksClosed_iff chainSysroot (str "arm-linux") (str "/s") [] (str "lib")
    (· == str "libfoo.so") (by decide +kernel)

end MotionPie.Toolchain.CopyToolchainLibRoot
