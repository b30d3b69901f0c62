import MotionPie.Package.Makedevs.MakeDirectory

/-!
# The missing directories

What `bb_make_directory` makes in a tree of files, by a process that may search and write in each
directory.
-/

namespace MotionPie.Package.Makedevs

open Base

universe v

variable {φ : Type v}

/-- The components of a path without the empty ones at its end. -/
def stem (s : Bytes) : List Bytes := (components s).rdropWhile List.isEmpty

/-- The system calls on a tree of files, where the attribute of a directory is its mode. `mkdir`
does not follow a link in the last place, also when slashes come behind it. -/
def treeCalls (regular : φ → Bool) (links : ℕ) (cur : Place) : FileCalls (FileTree ℕ φ) where
  mkdir path mode umask t :=
    if path = [] then (some .enoent, t)
    else match t.walk false links (base path cur) (stem path) with
      | .node _ => (some .eexist, t)
      | .absent [] => (some .enoent, t)
      | .absent (n :: p) => (none, t.add n p (.dir (Nat.ldiff mode umask)))
      | .broken e => (some e, t)
  stat path t :=
    if path = [] then none
    else match t.walk true links (base path cur) (components path) with
      | .node p => match t.node p with
        | some (.dir _) => some .directory
        | some (.file content) => some (if regular content then .regular else .other)
        | _ => none
      | _ => none
  chmod path mode t :=
    if path = [] then (some .enoent, t)
    else match t.walk true links (base path cur) (components path) with
      -- the modes of other files than directories are part of their contents
      | .node p => (none, t.setDir p (mode &&& 0o7777))
      | .absent _ => (some .enoent, t)
      | .broken e => (some e, t)

/-- The path is the name of this directory. -/
def NamesDir (links : ℕ) (cur : Place) (t : FileTree ℕ φ) (path : Bytes) (q : Place) : Prop :=
  t.walk true links (base path cur) (components path) = .node q ∧ t.IsDir q

/-- The path exists as something else than a directory. -/
def Obstructed (links : ℕ) (cur : Place) (t : FileTree ℕ φ) (path : Bytes) : Prop :=
  (∃ q, t.walk false links (base path cur) (stem path) = .node q) ∧
    ¬ ∃ q, NamesDir links cur t path q

instance decidableFound (f : Found) (t : FileTree ℕ φ) :
    Decidable (∃ q, f = .node q ∧ t.IsDir q) :=
  match f with
  | .node p => decidable_of_iff (t.IsDir p) (by simp)
  | .absent _ => isFalse (by simp)
  | .broken _ => isFalse (by simp)

instance decidableNode (f : Found) : Decidable (∃ q, f = .node q) :=
  match f with
  | .node p => isTrue ⟨p, rfl⟩
  | .absent _ => isFalse (by simp)
  | .broken _ => isFalse (by simp)

instance (links : ℕ) (cur : Place) (t : FileTree ℕ φ) (path : Bytes) :
    Decidable (Obstructed links cur t path) :=
  have := decidableFound (t.walk true links (base path cur) (components path)) t
  inferInstanceAs (Decidable (_ ∧ ¬ ∃ q, _ ∧ t.IsDir q))

/-- No path of the list exists as something else than a directory once those before it are made. -/
def Clear (regular : φ → Bool) (links : ℕ) (cur : Place) (umask : ℕ) :
    List Bytes → FileTree ℕ φ → Prop
  | [], _ => True
  | path :: paths, t => ¬ Obstructed links cur t path ∧
      Clear regular links cur umask paths ((treeCalls regular links cur).mkdir path 0o777 umask t).2

instance decidableClear (regular : φ → Bool) (links : ℕ) (cur : Place) (umask : ℕ) :
    (paths : List Bytes) → (t : FileTree ℕ φ) → Decidable (Clear regular links cur umask paths t)
  | [], _ => isTrue trivial
  | path :: paths, t =>
    have := decidableClear regular links cur umask paths
      ((treeCalls regular links cur).mkdir path 0o777 umask t).2
    inferInstanceAs (Decidable (_ ∧ _))

/-- From one tree to the next the directories that were missing on these paths have been made. -/
structure Ensured (links : ℕ) (cur : Place) (paths : List Bytes) (t t' : FileTree ℕ φ) : Prop where
  /-- All paths are the names of directories. -/
  directories : ∀ p ∈ paths, ∃ q, NamesDir links cur t' p q
  /-- What was there is there with the same mode, content or target. -/
  keeps : ∀ q x, t.node q = some x → t'.node q = some x
  /-- What is new is a directory on the paths. -/
  missing : ∀ q, t.node q = none → t'.node q ≠ none → ∃ p ∈ paths, NamesDir links cur t' p q

variable {regular : φ → Bool} {links umask mode : ℕ} {cur b d q : Place} {t t' t'' : FileTree ℕ φ}
  {path done s w : Bytes} {paths paths' way : List Bytes} {a : ℕ}

/-! ### Names of directories -/

/-- The path of a directory is a way to it. -/
theorem namesDir_iff (hcur : t.IsDir cur) :
    NamesDir links cur t path q ↔ ∃ k ≤ links, t.Leads (base path cur) (components path) k q := by
  constructor
  · rintro ⟨hwalk, hq⟩
    exact FileTree.leads_of_walk hwalk hq
  · rintro ⟨k, hk, hleads⟩
    refine ⟨hleads.walk_eq hk, hleads.isDir ?_⟩
    unfold base
    split
    · exact t.root
    · exact hcur

/-- A path has one directory. -/
theorem NamesDir.unique (h : NamesDir links cur t path q) (h' : NamesDir links cur t path d) :
    q = d :=
  Found.node.inj (h.1.symm.trans h'.1)

/-- A tree that keeps what was there keeps the directories. -/
theorem isDir_of_keeps (hkeeps : ∀ q x, t.node q = some x → t'.node q = some x)
    (h : t.IsDir q) : t'.IsDir q := by
  obtain ⟨a, ha⟩ := h
  exact ⟨a, hkeeps q _ ha⟩

/-- The names of directories are still good when nothing has gone. -/
theorem NamesDir.mono (hcur : t.IsDir cur)
    (hkeeps : ∀ q x, t.node q = some x → t'.node q = some x)
    (h : NamesDir links cur t path q) : NamesDir links cur t' path q := by
  obtain ⟨k, hk, hleads⟩ := (namesDir_iff hcur).mp h
  exact (namesDir_iff (isDir_of_keeps hkeeps hcur)).mpr
    ⟨k, hk, hleads.mono (fun _ ↦ isDir_of_keeps hkeeps) fun p target ↦ hkeeps p _⟩

/-- Nothing to do for no path. -/
theorem Ensured.refl : Ensured links cur [] t t where
  directories _ hp := by cases hp
  keeps _ _ h := h
  missing _ hnone hsome := absurd hnone hsome

/-- One path after the other. -/
theorem Ensured.trans (hcur : t.IsDir cur) (h : Ensured links cur paths t t')
    (h' : Ensured links cur paths' t' t'') : Ensured links cur (paths ++ paths') t t'' := by
  have hcur' : t'.IsDir cur := isDir_of_keeps h.keeps hcur
  refine ⟨fun p hp ↦ ?_, fun q x hx ↦ h'.keeps q x (h.keeps q x hx), fun q hnone hsome ↦ ?_⟩
  · rcases List.mem_append.mp hp with hp | hp
    · obtain ⟨q, hq⟩ := h.directories p hp
      exact ⟨q, hq.mono hcur' h'.keeps⟩
    · exact h'.directories p hp
  · by_cases hmid : t'.node q = none
    · obtain ⟨p, hp, hnames⟩ := h'.missing q hmid hsome
      exact ⟨p, List.mem_append_right paths hp, hnames⟩
    · obtain ⟨p, hp, hnames⟩ := h.missing q hnone hmid
      exact ⟨p, List.mem_append_left paths' hp, hnames.mono hcur' h'.keeps⟩

/-- A path has got its directory, and nothing else is new. -/
theorem Ensured.of_new (hnone : t.node q = none)
    (hnode : ∀ p, t'.node p = if p = q then some (.dir a) else t.node p)
    (hnames : NamesDir links cur t' path q) : Ensured links cur [path] t t' := by
  refine ⟨fun p hp ↦ ?_, fun p x hx ↦ ?_, fun p hp hsome ↦ ?_⟩
  · obtain rfl := List.mem_singleton.mp hp
    exact ⟨q, hnames⟩
  · have hne : p ≠ q := by
      rintro rfl
      rw [hnone] at hx
      cases hx
    rw [hnode, if_neg hne, hx]
  · refine ⟨path, List.mem_singleton.mpr rfl, ?_⟩
    rw [hnode] at hsome
    split at hsome
    · next heq => exact heq ▸ hnames
    · exact absurd hp hsome

/-- A path had its directory. -/
theorem Ensured.of_names (hnames : NamesDir links cur t path q) :
    Ensured links cur [path] t t := by
  refine ⟨fun p hp ↦ ?_, fun _ _ h ↦ h, fun _ hnone hsome ↦ absurd hnone hsome⟩
  obtain rfl := List.mem_singleton.mp hp
  exact ⟨q, hnames⟩

/-- What `stat` says of the name of a directory. -/
theorem stat_namesDir (regular : φ → Bool) (hpath : path ≠ []) (h : NamesDir links cur t path q) :
    (treeCalls regular links cur).stat path t = some .directory := by
  obtain ⟨hwalk, a, ha⟩ := h
  simp only [treeCalls, if_neg hpath, hwalk, ha]

/-! ### The components of the cuts -/

/-- A part up to a cut is a component, the first one perhaps empty, and slashes. -/
theorem front_eq (s : Bytes) : ∃ m, (behind s ≠ [] → m ≠ 0) ∧
    front s = s.takeWhile (fun b ↦ b != slash) ++ List.replicate m slash := by
  obtain ⟨r, hr⟩ : ∃ r, s.dropWhile (fun b ↦ b != slash) = r := ⟨_, rfl⟩
  refine ⟨(r.takeWhile fun b ↦ b == slash).length, ?_, ?_⟩
  · intro hbehind
    rw [behind, hr] at hbehind
    cases r with
    | nil => exact absurd rfl hbehind
    | cons b r =>
      have hhead := List.head?_dropWhile_not (fun b ↦ b != slash) s
      rw [hr] at hhead
      obtain rfl : b = slash := by simpa using hhead
      simp
  · rw [front, hr]
    congr 1
    refine List.eq_replicate_of_mem fun b hb ↦ ?_
    have hmem := List.mem_takeWhile_imp hb
    simpa using hmem

/-- No slash is in a component. -/
theorem slash_notMem_takeWhile (s : Bytes) : slash ∉ s.takeWhile fun b ↦ b != slash := by
  intro hmem
  have hne := List.mem_takeWhile_imp hmem
  simp at hne

/-- What comes behind a cut does not start with a slash. -/
theorem head?_behind (s : Bytes) : (behind s).head? ≠ some slash := by
  intro hhead
  have hnot := List.head?_dropWhile_not (fun b ↦ b == slash) (s.dropWhile fun b ↦ b != slash)
  rw [behind] at hhead
  rw [hhead] at hnot
  simp at hnot

/-- Slashes in front are empty components. -/
theorem components_slashes (m : ℕ) (x : Bytes) :
    components (List.replicate m slash ++ x) = List.replicate m [] ++ components x := by
  induction m with
  | zero => rfl
  | succ m ih =>
    rw [List.replicate_succ, List.replicate_succ, List.cons_append, List.cons_append, ← ih]
    exact FileTree.components_append [] _

/-- A component and slashes in front. -/
theorem components_word (hw : slash ∉ w) (m : ℕ) (x : Bytes) :
    components (w ++ (List.replicate (m + 1) slash ++ x)) =
      w :: (List.replicate m [] ++ components x) := by
  have hsingle : components w = [w] := List.splitOn_eq_singleton hw
  rw [List.replicate_succ, List.cons_append, FileTree.components_append, hsingle,
    components_slashes, List.singleton_append]

/-- The components up to a cut. -/
theorem components_front (hw : slash ∉ w) (m : ℕ) :
    components (w ++ List.replicate m slash) = w :: List.replicate m [] := by
  cases m with
  | zero =>
    rw [List.replicate_zero, List.append_nil]
    exact List.splitOn_eq_singleton hw
  | succ m =>
    have hword := components_word hw m []
    rw [List.append_nil] at hword
    rw [hword, List.replicate_succ']
    rfl

/-- The stem of a path ends with its last component that is not empty. -/
theorem stem_eq {m : ℕ} (h : components path = way ++ w :: List.replicate m []) (hw : w ≠ []) :
    stem path = way ++ [w] := by
  have hempty : ∀ c ∈ List.replicate m ([] : Bytes), List.isEmpty c = true := by
    intro c hc
    rw [List.eq_of_mem_replicate hc]
    rfl
  rw [stem, h, List.rdropWhile, List.reverse_append, List.reverse_cons, List.append_assoc,
    List.reverse_replicate, List.dropWhile_append_of_pos hempty, List.singleton_append,
    List.dropWhile_cons_of_neg (by simpa using hw)]
  simp

/-! ### One directory on the way -/

/-- Where the loop stands before a cut: the path so far leads through the components `way` to the
directory `d`. -/
structure Reached (links : ℕ) (b : Place) (t : FileTree ℕ φ) (done s : Bytes) (way : List Bytes)
    (d : Place) : Prop where
  components : ∀ x, components (done ++ x) = way ++ components x
  leads : ∃ k ≤ links, t.Leads b way k d
  isDir : t.IsDir d
  zero : (0 : UInt8) ∉ s
  rest : s ≠ []
  word : way = [] ∨ s.head? ≠ some slash

/-- What `mkdir` finds at a cut: a place for the directory, or a file of any kind. -/
theorem Reached.walk_stem (h : Reached links b t done s way d) :
    (t.Free (s.takeWhile fun c ↦ c != slash) d ∧
        t.walk false links b (stem (done ++ front s)) =
          .absent (s.takeWhile (fun c ↦ c != slash) :: d)) ∨
      (¬ t.Free (s.takeWhile fun c ↦ c != slash) d ∧
        ∃ q, t.walk false links b (stem (done ++ front s)) = .node q) := by
  obtain ⟨w, hw⟩ : ∃ w, s.takeWhile (fun c ↦ c != slash) = w := ⟨_, rfl⟩
  have hslash : slash ∉ w := hw ▸ slash_notMem_takeWhile s
  have hzero : (0 : UInt8) ∉ w := fun hmem ↦
    h.zero (List.takeWhile_subset _ (hw ▸ hmem))
  obtain ⟨m, -, hfront⟩ := front_eq s
  have hcomponents : Base.components (done ++ front s) = way ++ w :: List.replicate m [] := by
    rw [h.components, hfront, hw, components_front hslash]
  rw [hw]
  by_cases hempty : w = []
  · -- the path starts with slashes, and there is no component yet
    obtain rfl : way = [] := by
      refine h.word.resolve_right fun hhead ↦ hhead ?_
      cases s with
      | nil => exact absurd rfl h.rest
      | cons c s =>
        by_cases hc : c = slash
        · rw [hc, List.head?_cons]
        · rw [List.takeWhile_cons_of_pos (by simpa using hc), hempty] at hw
          cases hw
    have hstem : stem (done ++ front s) = [] := by
      rw [stem, hcomponents, hempty, List.nil_append, ← List.replicate_succ,
        List.rdropWhile_eq_nil_iff]
      intro c hc
      rw [List.eq_of_mem_replicate hc]
      rfl
    exact .inr ⟨fun hfree ↦ hfree.2.1.1 hempty, b, by rw [hstem, FileTree.walk_nil]⟩
  · obtain ⟨k, hk, hleads⟩ := h.leads
    have hlookup : t.walk false links b (stem (done ++ front s)) =
        t.walk false (links - k) d [w] := by
      rw [stem_eq hcomponents hempty]
      exact hleads.walk_append hk (.inl (List.cons_ne_nil w []))
    rw [hlookup]
    exact FileTree.walk_single h.isDir hslash hzero

/-- Empty components stay. -/
theorem leads_replicate (t : FileTree ℕ φ) (d : Place) (m : ℕ) :
    t.Leads d (List.replicate m []) 0 d := by
  induction m with
  | zero => exact .nil d
  | succ m ih => exact .stay (.inl rfl) ih

/-- A new directory at a cut has the path so far as its name. -/
theorem Reached.namesDir_new (hcur : t.IsDir cur) (h : Reached links b t done s way d)
    (hb : base (done ++ front s) cur = b) (hw : s.takeWhile (fun c ↦ c != slash) = w)
    (hnone : t.node (w :: d) = none)
    (hnode : ∀ p, t'.node p = if p = w :: d then some (.dir a) else t.node p) :
    NamesDir links cur t' (done ++ front s) (w :: d) := by
  have hkeeps : ∀ p x, t.node p = some x → t'.node p = some x := by
    intro p x hx
    have hne : p ≠ w :: d := by
      rintro rfl
      rw [hnone] at hx
      cases hx
    rw [hnode, if_neg hne, hx]
  have hnew : t'.IsDir (w :: d) := ⟨a, by rw [hnode, if_pos rfl]⟩
  have hslash : slash ∉ w := hw ▸ slash_notMem_takeWhile s
  obtain ⟨m, -, hfront⟩ := front_eq s
  obtain ⟨k, hk, hleads⟩ := h.leads
  refine (namesDir_iff (isDir_of_keeps hkeeps hcur)).mpr ⟨k, hk, ?_⟩
  rw [hb, h.components, hfront, hw, components_front hslash]
  exact (hleads.mono (fun _ ↦ isDir_of_keeps hkeeps) fun p target ↦ hkeeps p _).append
    (.dir hnew (leads_replicate t' (w :: d) m))

/-- The directory that is made at a cut is what is new. -/
theorem Reached.ensured_new (hcur : t.IsDir cur) (h : Reached links b t done s way d)
    (hb : base (done ++ front s) cur = b) (hw : s.takeWhile (fun c ↦ c != slash) = w)
    (hfree : t.Free w d) :
    Ensured links cur [done ++ front s] t (t.add w d (.dir a)) :=
  have hnode := FileTree.node_add hfree (.dir a)
  .of_new hfree.2.2 hnode (h.namesDir_new hcur hb hw hfree.2.2 hnode)

/-- `mkdir` at a cut: the directory is made, or it is there. -/
theorem Reached.mkdir (regular : φ → Bool) (mode umask : ℕ) (h : Reached links b t done s way d)
    (hb : base (done ++ front s) cur = b) (hclear : ¬ Obstructed links cur t (done ++ front s)) :
    (∃ w, s.takeWhile (fun c ↦ c != slash) = w ∧ t.Free w d ∧
        (treeCalls regular links cur).mkdir (done ++ front s) mode umask t =
          (none, t.add w d (.dir (Nat.ldiff mode umask)))) ∨
      (¬ t.Free (s.takeWhile fun c ↦ c != slash) d ∧
        (treeCalls regular links cur).mkdir (done ++ front s) mode umask t = (some .eexist, t) ∧
        ∃ q, NamesDir links cur t (done ++ front s) q) := by
  have hpath : done ++ front s ≠ [] := by simp [front_ne_nil h.rest]
  rcases h.walk_stem with ⟨hfree, habsent⟩ | ⟨hfree, q, hq⟩
  · refine .inl ⟨_, rfl, hfree, ?_⟩
    simp only [treeCalls, if_neg hpath, hb, habsent]
  · refine .inr ⟨hfree, ?_, ?_⟩
    · simp only [treeCalls, if_neg hpath, hb, hq]
    · by_contra hnone
      exact hclear ⟨⟨q, hb.symm ▸ hq⟩, hnone⟩

/-- A directory on the way is ensured. -/
theorem Reached.ensure (regular : φ → Bool) (umask : ℕ) (hcur : t.IsDir cur)
    (h : Reached links b t done s way d)
    (hb : base (done ++ front s) cur = b) (hclear : ¬ Obstructed links cur t (done ++ front s)) :
    ∃ t', ((treeCalls regular links cur).mkdir (done ++ front s) 0o777 umask t).2 = t' ∧
      ensure (treeCalls regular links cur) umask t (done ++ front s) = some t' ∧
      Ensured links cur [done ++ front s] t t' := by
  have hpath : done ++ front s ≠ [] := by simp [front_ne_nil h.rest]
  rcases h.mkdir regular 0o777 umask hb hclear with ⟨w, hw, hfree, hmkdir⟩ | ⟨-, hmkdir, q, hq⟩
  · refine ⟨_, by rw [hmkdir], ?_, h.ensured_new hcur hb hw hfree⟩
    simp only [Makedevs.ensure, hmkdir, if_true]
  · refine ⟨t, by rw [hmkdir], ?_, .of_names hq⟩
    have hstat := stat_namesDir regular hpath hq
    simp only [Makedevs.ensure, hmkdir, hstat]
    rfl

/-! ### The whole path -/

/-- A path so far starts where the path does. -/
theorem base_front (hs : s ≠ []) : base (done ++ front s) cur = base (done ++ s) cur := by
  have hpath : done ++ front s ≠ [] := by simp [front_ne_nil hs]
  have hhead : (done ++ s).head? = (done ++ front s).head? := by
    have happend : (done ++ front s ++ behind s).head? = (done ++ front s).head? :=
      List.head?_append_of_ne_nil _ hpath
    rwa [append_front_append_behind] at happend
  rw [base, base, isAbsolute, isAbsolute, hhead]

/-- The loop goes on from the directory at the cut. -/
theorem Reached.next (hcur : t'.IsDir cur) (h : Reached links b t done s way d)
    (hb : base (done ++ front s) cur = b) (hbehind : behind s ≠ [])
    (hnames : NamesDir links cur t' (done ++ front s) q) :
    ∃ way', Reached links b t' (done ++ front s) (behind s) way' q := by
  obtain ⟨w, hw⟩ : ∃ w, s.takeWhile (fun c ↦ c != slash) = w := ⟨_, rfl⟩
  have hslash : slash ∉ w := hw ▸ slash_notMem_takeWhile s
  obtain ⟨m, hm, hfront⟩ := front_eq s
  obtain ⟨m, rfl⟩ := Nat.exists_eq_succ_of_ne_zero (hm hbehind)
  have hcomponents : ∀ x, Base.components (done ++ front s ++ x) =
      (way ++ w :: List.replicate m []) ++ Base.components x := by
    intro x
    rw [List.append_assoc, h.components, hfront, hw, List.append_assoc, components_word hslash,
      List.append_assoc, List.cons_append]
  refine ⟨way ++ w :: List.replicate m [], hcomponents, ?_, hnames.2, ?_, hbehind, ?_⟩
  · obtain ⟨k, hk, hleads⟩ := (namesDir_iff hcur).mp hnames
    have hall := hcomponents []
    rw [List.append_nil] at hall
    rw [hb, hall] at hleads
    -- the empty component behind the last slash leads nowhere else
    obtain ⟨q', i, j, hij, hway, hlast⟩ := hleads.of_append
    have hstay : t'.walk true j q' (Base.components []) = .node q := hlast.walk_eq (le_refl j)
    have hnil : t'.walk true j q' (Base.components []) = .node q' := by
      rw [show Base.components [] = [[]] from rfl, FileTree.walk_stay (.inl rfl), FileTree.walk_nil]
    obtain rfl := Found.node.inj (hnil.symm.trans hstay)
    exact ⟨i, by omega, hway⟩
  · intro hmem
    have hbefore := List.mem_append_right (front s) hmem
    rw [front_append_behind] at hbefore
    exact h.zero hbefore
  · exact .inr (head?_behind s)

/-- All directories on the way are ensured, and the loop comes to its last round. -/
theorem Reached.run (regular : φ → Bool) (umask : ℕ) (hcur : t.IsDir cur)
    (h : Reached links b t done s way d) (hb : base (done ++ s) cur = b)
    (hclear : Clear regular links cur umask (parents done s ++ [done ++ s]) t) :
    ∃ t' done' s' way' d',
      (parents done s).foldlM (Makedevs.ensure (treeCalls regular links cur) umask) t = some t' ∧
      Ensured links cur (parents done s) t t' ∧ Reached links b t' done' s' way' d' ∧
      behind s' = [] ∧ done' ++ s' = done ++ s ∧ ¬ Obstructed links cur t' (done ++ s) := by
  induction hlen : s.length using Nat.strong_induction_on generalizing t done s way d with
  | h n ih =>
    subst hlen
    rw [parents_eq] at hclear ⊢
    by_cases hbehind : behind s = []
    · rw [if_pos hbehind] at hclear ⊢
      exact ⟨t, done, s, way, d, rfl, .refl, h, hbehind, rfl, hclear.1⟩
    · rw [if_neg hbehind] at hclear ⊢
      obtain ⟨hfree, hrest⟩ := hclear
      have hfront : base (done ++ front s) cur = b := (base_front h.rest).trans hb
      have hsplit := append_front_append_behind done s
      obtain ⟨t₁, hmkdir, hensure, hstep⟩ := h.ensure regular umask hcur hfront hfree
      obtain ⟨q, hnames⟩ := hstep.directories _ (List.mem_singleton.mpr rfl)
      have hcur₁ : t₁.IsDir cur := isDir_of_keeps hstep.keeps hcur
      obtain ⟨way₁, hreached⟩ := h.next hcur₁ hfront hbehind hnames
      rw [hmkdir] at hrest
      obtain ⟨t', done', s', way', d', hfold, hmade, hlast, hnil, hpath, hclear'⟩ :=
        ih _ (length_behind_lt hbehind) hcur₁ hreached (by rw [hsplit, hb])
          (by rwa [hsplit]) rfl
      refine ⟨t', done', s', way', d', ?_, hstep.trans hcur hmade, hlast, hnil,
        hpath.trans hsplit, hsplit ▸ hclear'⟩
      rw [List.foldlM_cons, hensure]
      exact hfold

/-- The components behind a cut are among those before it. -/
theorem subset_components (hbehind : behind s ≠ []) : components (behind s) ⊆ components s := by
  obtain ⟨m, hm, hfront⟩ := front_eq s
  obtain ⟨m, rfl⟩ := Nat.exists_eq_succ_of_ne_zero (hm hbehind)
  have hall : components s = s.takeWhile (fun b ↦ b != slash) ::
      (List.replicate m [] ++ components (behind s)) := by
    rw [← components_word (slash_notMem_takeWhile s), ← List.append_assoc, ← hfront,
      front_append_behind]
  rw [hall]
  exact List.subset_cons_of_subset _ (List.subset_append_right _ _)

/-- The component before a cut. -/
theorem takeWhile_mem_components (s : Bytes) :
    s.takeWhile (fun b ↦ b != slash) ∈ components s := by
  have hsingle : components (s.takeWhile fun b ↦ b != slash) = [s.takeWhile fun b ↦ b != slash] :=
    List.splitOn_eq_singleton (slash_notMem_takeWhile s)
  have hsplit := List.takeWhile_append_dropWhile (p := fun b ↦ b != slash) (l := s)
  cases hr : s.dropWhile fun b ↦ b != slash with
  | nil =>
    rw [hr, List.append_nil] at hsplit
    rw [hsplit] at hsingle ⊢
    rw [hsingle]
    exact List.mem_singleton.mpr rfl
  | cons c r =>
    have hhead := List.head?_dropWhile_not (fun b ↦ b != slash) s
    rw [hr] at hhead
    obtain rfl : c = slash := by simpa using hhead
    rw [hr] at hsplit
    have hall := FileTree.components_append (s.takeWhile fun b ↦ b != slash) r
    rw [hsplit, hsingle] at hall
    rw [hall]
    exact List.mem_cons_self

/-- In an empty directory a component stays where it is or can be made. -/
theorem Reached.free_or_stays (hcur : t.IsDir cur) (h : Reached links b t done s way d)
    (hb : base (done ++ front s) cur = b) (hdots : str ".." ∉ Base.components s)
    (hempty : ∀ n, t.node (n :: d) = none) :
    t.Free (s.takeWhile fun c ↦ c != slash) d ∨ NamesDir links cur t (done ++ front s) d := by
  obtain ⟨w, hw⟩ : ∃ w, s.takeWhile (fun c ↦ c != slash) = w := ⟨_, rfl⟩
  have hslash : slash ∉ w := hw ▸ slash_notMem_takeWhile s
  have hzero : (0 : UInt8) ∉ w := fun hmem ↦ h.zero (List.takeWhile_subset _ (hw ▸ hmem))
  rw [hw]
  by_cases hstay : w = [] ∨ w = str "."
  · obtain ⟨m, -, hfront⟩ := front_eq s
    obtain ⟨k, hk, hleads⟩ := h.leads
    refine .inr ((namesDir_iff hcur).mpr ⟨k, hk, ?_⟩)
    rw [hb, h.components, hfront, hw, components_front hslash]
    exact hleads.append (.stay hstay (leads_replicate t d m))
  · have hup : w ≠ str ".." := fun heq ↦ hdots (heq ▸ hw ▸ takeWhile_mem_components s)
    exact .inl ⟨h.isDir, ⟨fun hnil ↦ hstay (.inl hnil), hslash, hzero,
      fun hdot ↦ hstay (.inr hdot), hup⟩, hempty w⟩

/-- After a new directory the loop goes on in it, and it is empty. -/
theorem Reached.next_new (a : ℕ) (hcur : t.IsDir cur) (h : Reached links b t done s way d)
    (hb : base (done ++ front s) cur = b) (hbehind : behind s ≠ [])
    (hw : s.takeWhile (fun c ↦ c != slash) = w) (hfree : t.Free w d) :
    ∃ way', Reached links b (t.add w d (.dir a)) (done ++ front s) (behind s) way' (w :: d) ∧
      ∀ n, (t.add w d (.dir a)).node (n :: w :: d) = none := by
  have hnode := FileTree.node_add hfree (.dir a)
  have hnames := h.namesDir_new hcur hb hw hfree.2.2 hnode
  have hcur' := isDir_of_keeps (Ensured.of_new hfree.2.2 hnode hnames).keeps hcur
  obtain ⟨way', hreached⟩ := h.next hcur' hb hbehind hnames
  refine ⟨way', hreached, fun n ↦ ?_⟩
  rw [hnode, if_neg (List.cons_ne_self n (w :: d))]
  by_contra hsome
  obtain ⟨c, hc⟩ := t.parent n (w :: d) hsome
  rw [hfree.2.2] at hc
  cases hc

/-- In an empty directory nothing is in the way of a component. -/
theorem Reached.not_obstructed (h : Reached links b t done s way d)
    (hb : base (done ++ front s) cur = b)
    (hhere : t.Free (s.takeWhile fun c ↦ c != slash) d ∨
      NamesDir links cur t (done ++ front s) d) : ¬ Obstructed links cur t (done ++ front s) := by
  rintro ⟨⟨q, hq⟩, hother⟩
  rcases hhere with hfree | hnames
  · rcases h.walk_stem with ⟨-, habsent⟩ | ⟨hfull, -⟩
    · rw [hb, habsent] at hq
      cases hq
    · exact hfull hfree
  · exact hother ⟨d, hnames⟩

/-- Without two dots in the path nothing comes in the way that is not there at first: a new
directory is empty, and what the path names behind it is new too. -/
theorem Reached.clear (regular : φ → Bool) (umask : ℕ) (hcur : t.IsDir cur)
    (h : Reached links b t done s way d) (hb : base (done ++ s) cur = b)
    (hdots : str ".." ∉ Base.components s)
    (hstart : (∀ n, t.node (n :: d) = none) ∨
      ∀ p ∈ parents done s ++ [done ++ s], ¬ Obstructed links cur t p) :
    Clear regular links cur umask (parents done s ++ [done ++ s]) t := by
  induction hlen : s.length using Nat.strong_induction_on generalizing t done s way d with
  | h n ih =>
    subst hlen
    have hfront : base (done ++ front s) cur = b := (base_front h.rest).trans hb
    have hsplit := append_front_append_behind done s
    rw [parents_eq] at hstart ⊢
    by_cases hbehind : behind s = []
    · have hall : front s = s := front_of_behind hbehind
      rw [if_pos hbehind] at hstart ⊢
      refine ⟨?_, trivial⟩
      rcases hstart with hempty | hentry
      · have hhere := h.not_obstructed hfront (h.free_or_stays hcur hfront hdots hempty)
        rwa [hall] at hhere
      · exact hentry _ (List.mem_singleton.mpr rfl)
    · rw [if_neg hbehind] at hstart ⊢
      have hdots' : str ".." ∉ Base.components (behind s) := fun hmem ↦
        hdots (subset_components hbehind hmem)
      have hclear : ¬ Obstructed links cur t (done ++ front s) := hstart.elim
        (fun hempty ↦ h.not_obstructed hfront (h.free_or_stays hcur hfront hdots hempty))
        (fun hentry ↦ hentry _ List.mem_cons_self)
      refine ⟨hclear, ?_⟩
      rw [← hsplit]
      rcases h.mkdir regular 0o777 umask hfront hclear with
        ⟨w, hw, hfree, hmkdir⟩ | ⟨hfull, hmkdir, q, hq⟩
      · obtain ⟨way', hreached, hnew⟩ :=
          h.next_new (Nat.ldiff 0o777 umask) hcur hfront hbehind hw hfree
        have hcur' : (t.add w d (.dir (Nat.ldiff 0o777 umask))).IsDir cur :=
          isDir_of_keeps (h.ensured_new hcur hfront hw hfree).keeps hcur
        rw [hmkdir]
        exact ih _ (length_behind_lt hbehind) hcur' hreached (by rw [hsplit, hb]) hdots'
          (.inl hnew) rfl
      · rw [hmkdir]
        rcases hstart with hempty | hentry
        · have hnames := (h.free_or_stays hcur hfront hdots hempty).resolve_left hfull
          obtain ⟨way', hreached⟩ := h.next hcur hfront hbehind hnames
          exact ih _ (length_behind_lt hbehind) hcur hreached (by rw [hsplit, hb]) hdots'
            (.inl hempty) rfl
        · obtain ⟨way', hreached⟩ := h.next hcur hfront hbehind hq
          refine ih _ (length_behind_lt hbehind) hcur hreached (by rw [hsplit, hb]) hdots'
            (.inr fun p hp ↦ hentry p ?_) rfl
          rw [hsplit] at hp
          exact List.mem_cons_of_mem _ hp

/-- The last round: the directory was there and nothing changes, or it is made with its mode. -/
theorem Reached.finish (regular : φ → Bool) (mask umask mode : ℕ) (hcur : t.IsDir cur)
    (h : Reached links b t done s way d) (hb : base (done ++ s) cur = b) (hbehind : behind s = [])
    (hclear : ¬ Obstructed links cur t (done ++ s)) :
    ∃ t', finish (treeCalls regular links cur) true mask umask mode (done ++ s) t =
        ⟨0, done ++ s ++ [0], mask, t', none⟩ ∧ Ensured links cur [done ++ s] t t' ∧
      (t' = t ∨ ∃ q, NamesDir links cur t' (done ++ s) q ∧
        t'.node q = some (.dir (mode &&& 0o7777))) := by
  have hfront : front s = s := front_of_behind hbehind
  have hpath : done ++ s ≠ [] := by simp [h.rest]
  rw [← hfront] at hb hclear
  rcases h.mkdir regular 0o777 umask hb hclear with ⟨w, hw, hfree, hmkdir⟩ | ⟨-, hmkdir, q, hq⟩
  · -- the new directory gets its mode only now
    obtain ⟨t₁, ht₁⟩ : ∃ t₁, t.add w d (.dir (Nat.ldiff 0o777 umask)) = t₁ := ⟨_, rfl⟩
    have hadd := FileTree.node_add hfree (.dir (Nat.ldiff 0o777 umask))
    rw [ht₁] at hadd hmkdir
    have hnames := h.namesDir_new hcur hb hw hfree.2.2 hadd
    have hset := FileTree.node_setDir hnames.2 (mode &&& 0o7777)
    have hnode : ∀ p, (t₁.setDir (w :: d) (mode &&& 0o7777)).node p =
        if p = w :: d then some (.dir (mode &&& 0o7777)) else t.node p := by
      intro p
      rw [hset, hadd]
      split <;> rfl
    have hnames' := h.namesDir_new hcur hb hw hfree.2.2 hnode
    rw [hfront] at hmkdir hnames hnames'
    refine ⟨_, ?_, .of_new hfree.2.2 hnode hnames', .inr ⟨_, hnames', ?_⟩⟩
    · have hchmod : (treeCalls regular links cur).chmod (done ++ s) mode t₁ =
          (none, t₁.setDir (w :: d) (mode &&& 0o7777)) := by
        simp only [treeCalls, if_neg hpath, hnames.1]
      simp only [Makedevs.finish, hmkdir, hchmod, if_true]
    · rw [hnode, if_pos rfl]
  · rw [hfront] at hmkdir hq
    refine ⟨t, ?_, .of_names hq, .inl rfl⟩
    have hstat := stat_namesDir regular hpath hq
    simp only [Makedevs.finish, hmkdir, hstat]
    rfl

/-- Where the loop starts. -/
theorem reached_start (links : ℕ) (hcur : t.IsDir cur) (hzero : (0 : UInt8) ∉ path)
    (hpath : path ≠ []) :
    Reached links (base path cur) t [] path [] (base path cur) := by
  refine ⟨fun _ ↦ rfl, ⟨0, Nat.zero_le _, .nil _⟩, ?_, hzero, hpath, .inl rfl⟩
  unfold base
  split
  · exact t.root
  · exact hcur

/-- For a path without two dots it is enough that nothing is in the way at first. -/
theorem clear_of_entry (regular : φ → Bool) (umask : ℕ) (hcur : t.IsDir cur)
    (hzero : (0 : UInt8) ∉ path) (hpath : path ≠ []) (hdots : str ".." ∉ components path)
    (hentry : ∀ p ∈ parents [] path ++ [path], ¬ Obstructed links cur t p) :
    Clear regular links cur umask (parents [] path ++ [path]) t :=
  (reached_start links hcur hzero hpath).clear regular umask hcur rfl hdots (.inr hentry)

/-- With no file in the way the function returns `0`: the path and its parents are directories then,
only those that were missing have been made, what was there is as it was, and a new directory that
the path does not come through before its end has the requested mode. The buffer and the mask are
those of the caller. -/
theorem makeDirectory_creates (regular : φ → Bool) (links : ℕ) (hcur : t.IsDir cur)
    (hzero : (0 : UInt8) ∉ path) (hpath : path ≠ []) (request : Option ℕ) (mask : ℕ)
    (hclear : Clear regular links cur (wayMask request mask) (parents [] path ++ [path]) t) :
    ∃ t', makeDirectory (treeCalls regular links cur) path request true mask t =
        some ⟨0, path ++ [0], mask, t', none⟩ ∧
      Ensured links cur (parents [] path ++ [path]) t t' ∧
      ∀ q, NamesDir links cur t' path q → t.node q = none →
        (∀ p ∈ parents [] path, ¬ NamesDir links cur t' p q) →
        t'.node q = some (.dir (requestedMode request mask &&& 0o7777)) := by
  have hreached := reached_start links hcur hzero hpath
  obtain ⟨t₁, done, s, way, d, hfold, hmade, hlast, hbehind, hsplit, hleaf⟩ :=
    hreached.run regular (wayMask request mask) hcur rfl hclear
  rw [List.nil_append] at hsplit hleaf
  have hcur₁ : t₁.IsDir cur := isDir_of_keeps hmade.keeps hcur
  obtain ⟨t', hfinish, hnew, hmode⟩ := hlast.finish regular mask (wayMask request mask)
    (requestedMode request mask) hcur₁ (by rw [hsplit]) hbehind (by rwa [hsplit])
  rw [hsplit] at hfinish hnew hmode
  refine ⟨t', ?_, hmade.trans hcur hnew, fun q hq hnone hway ↦ ?_⟩
  · rw [(makeDirectory_run hzero request).1 t₁ hfold, hfinish]
  · rcases hmode with rfl | ⟨q', hq', hnode⟩
    · have hsome : t'.node q ≠ none := by
        obtain ⟨a, ha⟩ := hq.2
        simp [ha]
      obtain ⟨p, hp, hnames⟩ := hmade.missing q hnone hsome
      exact absurd hnames (hway p hp)
    · rw [hq.unique hq', hnode]

/-- A tree with a file in its root. -/
def oneFile : FileTree ℕ Unit := .ofList 0o755 [([str "f"], .file ())] (by decide +kernel)

/-- Two dots lead back from a new directory to a file: `a/../f` is no file at first, but in the way
later. A dot behind a new directory keeps it from its mode. -/
theorem makeDirectory_dots :
    ((∀ p ∈ parents [] (str "a/../f") ++ [str "a/../f"], ¬ Obstructed 40 [] oneFile p) ∧
      (makeDirectory (treeCalls (fun _ ↦ true) 40 []) (str "a/../f") (some 0o40700) true 0o22
        oneFile).map (·.ret) = some (-1)) ∧
    ((∀ p ∈ parents [] (str "a/.") ++ [str "a/."], ¬ Obstructed 40 [] oneFile p) ∧
      oneFile.node [str "a"] = none ∧
      (makeDirectory (treeCalls (fun _ ↦ true) 40 []) (str "a/.") (some 0o40700) true 0o22
        oneFile).map (fun r ↦ (r.ret, r.files.node [str "a"])) = some (0, some (.dir 0o755))) := by
  decide +kernel

/-- Two directories in the root, one in the other. -/
theorem makeDirectory_creates_two :
    ∃ t', makeDirectory (treeCalls (fun _ ↦ true) 40 []) (str "/a//b") (some 0o40700) true 0o22
        oneFile = some ⟨0, str "/a//b" ++ [0], 0o22, t', none⟩ ∧
      Ensured 40 [] (parents [] (str "/a//b") ++ [str "/a//b"]) oneFile t' ∧
      ∀ q, NamesDir 40 [] t' (str "/a//b") q → oneFile.node q = none →
        (∀ p ∈ parents [] (str "/a//b"), ¬ NamesDir 40 [] t' p q) →
        t'.node q = some (.dir (requestedMode (some 0o40700) 0o22 &&& 0o7777)) :=
  makeDirectory_creates (fun _ ↦ true) 40 ⟨0o755, rfl⟩ (by decide +kernel) (by decide +kernel)
    (some 0o40700) 0o22 (by decide +kernel)

end MotionPie.Package.Makedevs
