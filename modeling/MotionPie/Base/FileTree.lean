import MotionPie.Base.Text

/-!
# File trees and path names

A file tree says what stands at each place: a directory, a symbolic link or another file. A
path name is looked up one component at a time; a link puts the components of its text in front
of the rest, and only so many links may be followed. Attributes of directories and contents of
files are arbitrary.
-/

namespace MotionPie.Base

universe u v

/-- The separator of a path name. -/
def slash : UInt8 := 47

/-- What a name in a directory can stand for. -/
inductive Node (δ : Type u) (φ : Type v)
  | dir (attr : δ)
  | link (target : Bytes)
  | file (content : φ)
  deriving DecidableEq

/-- The node is a directory. -/
def Node.isDir {δ : Type u} {φ : Type v} : Node δ φ → Bool
  | .dir _ => true
  | _ => false

/-- A directory has attributes. -/
theorem Node.isDir_eq_true {δ : Type u} {φ : Type v} {x : Node δ φ} :
    x.isDir = true ↔ ∃ a, x = .dir a := by
  cases x <;> simp [Node.isDir]

/-- A place in a tree: the names that lead to it, the innermost one first. -/
abbrev Place := List Bytes

/-- A name that a directory entry can have. -/
def IsEntryName (n : Bytes) : Prop :=
  n ≠ [] ∧ slash ∉ n ∧ (0 : UInt8) ∉ n ∧ n ≠ str "." ∧ n ≠ str ".."

instance : DecidablePred IsEntryName := fun _ ↦ inferInstanceAs (Decidable (_ ∧ _))

/-- A proper name does not stay. -/
theorem IsEntryName.not_stay {n : Bytes} (hn : IsEntryName n) : ¬ (n = [] ∨ n = str ".") :=
  fun h ↦ h.elim hn.1 hn.2.2.2.1

/-- A tree of files: what is there stands in a directory, under a proper name. -/
structure FileTree (δ : Type u) (φ : Type v) where
  node : Place → Option (Node δ φ)
  root : ∃ a, node [] = some (.dir a)
  parent : ∀ n p, node (n :: p) ≠ none → ∃ a, node p = some (.dir a)
  name : ∀ n p, node (n :: p) ≠ none → IsEntryName n

/-- The errors of a lookup or of a system call. -/
inductive Errno
  | eexist
  | enoent
  | enotdir
  | eisdir
  | eloop
  | other (code : ℕ)
  deriving DecidableEq

/-- What a path name leads to. -/
inductive Found
  | node (p : Place)
  /-- Nothing is there, but the directory that would hold it is. -/
  | absent (p : Place)
  | broken (e : Errno)
  deriving DecidableEq

/-- The lookup is broken off. -/
def Found.isBroken : Found → Bool
  | .broken _ => true
  | _ => false

/-- The components of a path name. -/
def components (s : Bytes) : List Bytes := s.splitOn slash

/-- Whether a path name starts at the root. -/
def isAbsolute (s : Bytes) : Bool := s.head? = some slash

/-- Where the lookup of a path name starts. -/
def base (s : Bytes) (cur : Place) : Place := if isAbsolute s then [] else cur

/-- The text of a place. -/
def showPlace (p : Place) : Bytes :=
  if p = [] then [slash] else p.reverse.flatMap (slash :: ·)

variable {δ : Type u} {φ : Type v}

namespace FileTree

/-- A lookup as far as the next link: `jump` goes on behind it. -/
def walkFrom (t : FileTree δ φ) (follow : Bool) (jump : Place → List Bytes → Found) :
    Place → List Bytes → Found
  | cur, [] => .node cur
  | cur, c :: rest =>
    if c = [] ∨ c = str "." then walkFrom t follow jump cur rest
    else if c = str ".." then walkFrom t follow jump cur.tail rest
    else match t.node (c :: cur) with
      | none => if rest.all List.isEmpty then .absent (c :: cur) else .broken .enoent
      | some (.dir _) => walkFrom t follow jump (c :: cur) rest
      | some (.file _) => if rest = [] then .node (c :: cur) else .broken .enotdir
      | some (.link target) =>
        if rest = [] ∧ follow = false then .node (c :: cur)
        else jump (base target cur) (components target ++ rest)

/-- The lookup of components from a directory, with a limit on the links that are followed;
`follow` says whether a link in the last place is. -/
def walk (t : FileTree δ φ) (follow : Bool) : ℕ → Place → List Bytes → Found
  | 0 => t.walkFrom follow fun _ _ ↦ .broken .eloop
  | links + 1 => t.walkFrom follow (t.walk follow links)

/-- A directory stands here. -/
def IsDir (t : FileTree δ φ) (p : Place) : Prop := ∃ a, t.node p = some (.dir a)

instance decidableIsDir (t : FileTree δ φ) (p : Place) : Decidable (t.IsDir p) :=
  match h : t.node p with
  | some (.dir a) => isTrue ⟨a, h⟩
  | some (.link _) => isFalse fun ⟨a, ha⟩ ↦ by simp [h] at ha
  | some (.file _) => isFalse fun ⟨a, ha⟩ ↦ by simp [h] at ha
  | none => isFalse fun ⟨a, ha⟩ ↦ by simp [h] at ha

/-- Entries that make up a tree: each has a proper name and stands in the root or in a directory of
the list. -/
def Rooted (l : List (Place × Node δ φ)) : Prop :=
  ∀ x ∈ l, x.1 ≠ [] ∧ IsEntryName (x.1.headD []) ∧
    (x.1.tail = [] ∨ (l.find? (·.1 = x.1.tail)).any (·.2.isDir) = true)

instance (l : List (Place × Node δ φ)) : Decidable (Rooted l) := List.decidableBAll _ l

/-- The tree of a list of entries. -/
def ofList (a : δ) (l : List (Place × Node δ φ)) (h : Rooted l) : FileTree δ φ where
  node p := if p = [] then some (.dir a) else (l.find? (·.1 = p)).map Prod.snd
  root := ⟨a, rfl⟩
  parent n p hnode := by
    rw [if_neg (List.cons_ne_nil n p), ne_eq, Option.map_eq_none_iff] at hnode
    obtain ⟨x, hx⟩ := Option.ne_none_iff_exists'.mp hnode
    have hplace : x.1 = n :: p := by simpa using List.find?_some hx
    obtain ⟨-, -, hparent⟩ := h x (List.mem_of_find?_eq_some hx)
    rw [hplace, List.tail_cons] at hparent
    by_cases hp : p = []
    · exact ⟨a, if_pos hp⟩
    · obtain ⟨y, hy, hdir⟩ := (Option.any_eq_true _ _).mp (hparent.resolve_left hp)
      obtain ⟨b, hb⟩ := Node.isDir_eq_true.mp hdir
      exact ⟨b, by rw [if_neg hp, hy, Option.map_some, hb]⟩
  name n p hnode := by
    rw [if_neg (List.cons_ne_nil n p), ne_eq, Option.map_eq_none_iff] at hnode
    obtain ⟨x, hx⟩ := Option.ne_none_iff_exists'.mp hnode
    have hplace : x.1 = n :: p := by simpa using List.find?_some hx
    simpa [hplace] using (h x (List.mem_of_find?_eq_some hx)).2.1

/-- The names in a directory, in the order of the list. -/
def names (l : List (Place × Node δ φ)) (p : Place) : List Bytes :=
  (l.filter (·.1.tail = p)).map (·.1.headD [])

/-- The names in a directory are those of its entries. -/
theorem mem_names {a : δ} {l : List (Place × Node δ φ)} {h : Rooted l} {p : Place} {n : Bytes} :
    n ∈ names l p ↔ (ofList a l h).node (n :: p) ≠ none := by
  have hnode : (ofList a l h).node (n :: p) ≠ none ↔ ∃ x ∈ l, x.1 = n :: p := by
    simp [ofList, List.find?_eq_none]
  have hcons : ∀ x ∈ l, x.1.tail = p ∧ x.1.headD [] = n ↔ x.1 = n :: p := by
    intro x hx
    obtain ⟨m, q, hplace⟩ := List.exists_cons_of_ne_nil (h x hx).1
    simp [hplace, and_comm]
  rw [hnode, names, List.mem_map]
  constructor
  · rintro ⟨x, hx, hn⟩
    obtain ⟨hmem, htail⟩ := List.mem_filter.mp hx
    exact ⟨x, hmem, (hcons x hmem).mp ⟨by simpa using htail, hn⟩⟩
  · rintro ⟨x, hmem, hplace⟩
    obtain ⟨htail, hn⟩ := (hcons x hmem).mpr hplace
    exact ⟨x, List.mem_filter.mpr ⟨hmem, by simpa using htail⟩, hn⟩

/-- Something new can stand at this place. -/
def Free (t : FileTree δ φ) (n : Bytes) (p : Place) : Prop :=
  t.IsDir p ∧ IsEntryName n ∧ t.node (n :: p) = none

instance (t : FileTree δ φ) (n : Bytes) (p : Place) : Decidable (t.Free n p) :=
  have : Decidable (t.node (n :: p) = none) := decidable_of_iff _ Option.isNone_iff_eq_none
  inferInstanceAs (Decidable (_ ∧ _))

/-- A new entry, where nothing stands and a directory can hold it. -/
def add (t : FileTree δ φ) (n : Bytes) (p : Place) (x : Node δ φ) : FileTree δ φ :=
  if h : t.Free n p then
    { node := fun q ↦ if q = n :: p then some x else t.node q
      root := by rw [if_neg (List.cons_ne_nil n p).symm]; exact t.root
      parent := by
        intro m q hq
        split at hq
        · next heq =>
          obtain ⟨-, rfl⟩ := List.cons.inj heq
          rw [if_neg (List.cons_ne_self n q).symm]
          exact h.1
        · obtain ⟨a, ha⟩ := t.parent m q hq
          rw [if_neg (by rintro rfl; rw [h.2.2] at ha; cases ha)]
          exact ⟨a, ha⟩
      name := by
        intro m q hq
        split at hq
        · next heq =>
          obtain ⟨rfl, -⟩ := List.cons.inj heq
          exact h.2.1
        · exact t.name m q hq }
  else t

/-- Other attributes for a directory. -/
def setDir (t : FileTree δ φ) (p : Place) (a : δ) : FileTree δ φ :=
  if h : t.IsDir p then
    { node := fun q ↦ if q = p then some (.dir a) else t.node q
      root := by
        by_cases hp : [] = p
        · exact ⟨a, if_pos hp⟩
        · rw [if_neg hp]
          exact t.root
      parent := by
        intro m q hq
        have hold : t.node (m :: q) ≠ none := by
          split at hq
          · next heq =>
            obtain ⟨b, hb⟩ := h
            simp [heq, hb]
          · exact hq
        by_cases hp : q = p
        · exact ⟨a, if_pos hp⟩
        · rw [if_neg hp]
          exact t.parent m q hold
      name := by
        intro m q hq
        split at hq
        · next heq => exact t.name m q (by obtain ⟨b, hb⟩ := h; simp [heq, hb])
        · exact t.name m q hq }
  else t

variable {t t' : FileTree δ φ} {follow : Bool} {links : ℕ} {cur p q : Place} {c n target : Bytes}
  {rest as bs : List Bytes} {k : ℕ}

/-- A tree with other attributes for a directory. -/
theorem node_setDir (h : t.IsDir p) (a : δ) (q : Place) :
    (t.setDir p a).node q = if q = p then some (.dir a) else t.node q := by
  rw [setDir, dif_pos h]

/-- A tree with a new entry. -/
theorem node_add (h : t.Free n p) (x : Node δ φ) (q : Place) :
    (t.add n p x).node q = if q = n :: p then some x else t.node q := by
  rw [add, dif_pos h]

/-- The directory above. -/
theorem IsDir.tail (h : t.IsDir p) : t.IsDir p.tail := by
  cases p with
  | nil => exact h
  | cons n p => exact t.parent n p (by obtain ⟨a, ha⟩ := h; simp [ha])

/-! ### One component -/

/-- No component is left. -/
@[simp] theorem walk_nil : t.walk follow links cur [] = .node cur := by
  cases links <;> rfl

/-- An empty component and a dot stay. -/
theorem walk_stay (h : c = [] ∨ c = str ".") :
    t.walk follow links cur (c :: rest) = t.walk follow links cur rest := by
  cases links <;> rw [walk, walkFrom, if_pos h]

/-- Two dots lead to the directory above. -/
theorem walk_up :
    t.walk follow links cur (str ".." :: rest) = t.walk follow links cur.tail rest := by
  cases links <;> rw [walk, walkFrom, if_neg (by decide), if_pos rfl]

/-- A name that stands for a directory. -/
theorem walk_dir (hn : IsEntryName n) (hnode : t.IsDir (n :: cur)) :
    t.walk follow links cur (n :: rest) = t.walk follow links (n :: cur) rest := by
  obtain ⟨a, ha⟩ := hnode
  cases links <;> rw [walk, walkFrom, if_neg hn.not_stay, if_neg hn.2.2.2.2, ha]

/-- A name that stands for nothing, in the last place. -/
theorem walk_absent (hn : IsEntryName n) (hnode : t.node (n :: cur) = none) :
    t.walk follow links cur [n] = .absent (n :: cur) := by
  cases links <;> rw [walk, walkFrom, if_neg hn.not_stay, if_neg hn.2.2.2.2, hnode] <;> rfl

/-- A file in the last place. -/
theorem walk_file {content : φ} (hn : IsEntryName n)
    (hnode : t.node (n :: cur) = some (.file content)) :
    t.walk follow links cur [n] = .node (n :: cur) := by
  cases links <;> rw [walk, walkFrom, if_neg hn.not_stay, if_neg hn.2.2.2.2, hnode] <;> rfl

/-- A link in the last place, when it is not followed. -/
theorem walk_link_last (hn : IsEntryName n) (hnode : t.node (n :: cur) = some (.link target)) :
    t.walk false links cur [n] = .node (n :: cur) := by
  cases links <;> rw [walk, walkFrom, if_neg hn.not_stay, if_neg hn.2.2.2.2, hnode] <;> rfl

/-- A link is followed. -/
theorem walk_link (hn : IsEntryName n) (hnode : t.node (n :: cur) = some (.link target))
    (hfollow : rest ≠ [] ∨ follow = true) :
    t.walk follow (links + 1) cur (n :: rest) =
      t.walk follow links (base target cur) (components target ++ rest) := by
  have hgoes : ¬ (rest = [] ∧ follow = false) := by
    rintro ⟨hrest, hlast⟩
    rcases hfollow with h | h
    · exact h hrest
    · rw [hlast] at h
      cases h
  rw [walk, walkFrom, if_neg hn.not_stay, if_neg hn.2.2.2.2, hnode]
  exact if_neg hgoes

/-- Something stands where a lookup ends. -/
theorem node_of_walk (hcur : t.IsDir cur) (h : t.walk follow links cur as = .node p) :
    t.node p ≠ none := by
  have hfrom : ∀ jump : Place → List Bytes → Found,
      (∀ cur as, t.IsDir cur → jump cur as = .node p → t.node p ≠ none) →
      ∀ as cur, t.IsDir cur → t.walkFrom follow jump cur as = .node p → t.node p ≠ none := by
    intro jump hjump as
    induction as with
    | nil =>
      intro cur hcur h
      obtain rfl := Found.node.inj h
      obtain ⟨a, ha⟩ := hcur
      simp [ha]
    | cons c rest ih =>
      intro cur hcur h
      rw [walkFrom] at h
      split at h
      · exact ih cur hcur h
      split at h
      · exact ih cur.tail hcur.tail h
      split at h
      · split at h <;> cases h
      · next a ha => exact ih (c :: cur) ⟨a, ha⟩ h
      · next content hcontent =>
        split at h
        · obtain rfl := Found.node.inj h
          simp [hcontent]
        · cases h
      · next target htarget =>
        split at h
        · obtain rfl := Found.node.inj h
          simp [htarget]
        · refine hjump _ _ ?_ h
          unfold base
          split
          · exact t.root
          · exact hcur
  induction links generalizing cur as with
  | zero => exact hfrom _ (fun _ _ _ h ↦ by cases h) as cur hcur h
  | succ links ih => exact hfrom _ (fun _ _ ↦ ih) as cur hcur h

/-! ### Directories on the way -/

/-- Components lead from one directory to another, through `k` links. -/
inductive Leads (t : FileTree δ φ) : Place → List Bytes → ℕ → Place → Prop
  | nil (cur : Place) : Leads t cur [] 0 cur
  | stay {c : Bytes} {cur q : Place} {rest : List Bytes} {k : ℕ} (hc : c = [] ∨ c = str ".")
    (h : Leads t cur rest k q) : Leads t cur (c :: rest) k q
  | up {cur q : Place} {rest : List Bytes} {k : ℕ} (h : Leads t cur.tail rest k q) :
    Leads t cur (str ".." :: rest) k q
  | dir {n : Bytes} {cur q : Place} {rest : List Bytes} {k : ℕ} (hnode : t.IsDir (n :: cur))
    (h : Leads t (n :: cur) rest k q) : Leads t cur (n :: rest) k q
  | link {n target : Bytes} {cur q : Place} {rest : List Bytes} {k : ℕ}
    (hnode : t.node (n :: cur) = some (.link target))
    (h : Leads t (base target cur) (components target ++ rest) k q) :
    Leads t cur (n :: rest) (k + 1) q

/-- A directory has a proper name. -/
theorem IsDir.isEntryName (h : t.IsDir (n :: p)) : IsEntryName n := by
  obtain ⟨a, ha⟩ := h
  exact t.name n p (by simp [ha])

/-- What follows components that lead to a directory is looked up from there. -/
theorem Leads.walk_append (h : t.Leads cur as k p) (hk : k ≤ links)
    (hlast : bs ≠ [] ∨ follow = true) :
    t.walk follow links cur (as ++ bs) = t.walk follow (links - k) p bs := by
  induction h generalizing links with
  | nil => rfl
  | stay hc h ih => rw [List.cons_append, walk_stay hc, ih hk]
  | up h ih => rw [List.cons_append, walk_up, ih hk]
  | dir hnode h ih => rw [List.cons_append, walk_dir hnode.isEntryName hnode, ih hk]
  | @link n target cur q rest k hnode h ih =>
    obtain ⟨links, rfl⟩ := Nat.exists_eq_add_of_le' (Nat.le_of_add_left_le hk : 1 ≤ links)
    have hgoes : rest ++ bs ≠ [] ∨ follow = true := by
      rcases hlast with h | h
      · exact .inl (by simp [h])
      · exact .inr h
    rw [List.cons_append, walk_link (t.name n cur (by simp [hnode])) hnode hgoes,
      ← List.append_assoc, ih (by omega), Nat.add_sub_add_right]

/-- A lookup of components that lead to a directory finds it. -/
theorem Leads.walk_eq (h : t.Leads cur as k p) (hk : k ≤ links) :
    t.walk true links cur as = .node p := by
  have hwalk : t.walk true links cur (as ++ []) = t.walk true (links - k) p [] :=
    h.walk_append hk (.inr rfl)
  rwa [List.append_nil, walk_nil] at hwalk

/-- Components that lead on from where others lead. -/
theorem Leads.append (h : t.Leads cur as k p) {m : ℕ} (h' : t.Leads p bs m q) :
    t.Leads cur (as ++ bs) (k + m) q := by
  induction h with
  | nil => simpa using h'
  | stay hc h ih => exact .stay hc (ih h')
  | up h ih => exact .up (ih h')
  | dir hnode h ih => exact .dir hnode (ih h')
  | @link n target cur q rest k hnode h ih =>
    have hrest := ih h'
    rw [List.append_assoc] at hrest
    rw [Nat.add_right_comm]
    exact .link hnode hrest

/-- Components that lead to a directory do so in two parts. -/
theorem Leads.of_append (h : t.Leads cur (as ++ bs) k q) :
    ∃ d i j, k = i + j ∧ t.Leads cur as i d ∧ t.Leads d bs j q := by
  generalize hall : as ++ bs = all at h
  induction h generalizing as with
  | nil cur =>
    obtain ⟨rfl, rfl⟩ := List.append_eq_nil_iff.mp hall
    exact ⟨cur, 0, 0, rfl, .nil cur, .nil cur⟩
  | @stay c cur q rest k hc h ih =>
    rcases List.append_eq_cons_iff.mp hall with ⟨rfl, rfl⟩ | ⟨as', rfl, rfl⟩
    · exact ⟨cur, 0, k, (Nat.zero_add k).symm, .nil cur, .stay hc h⟩
    · obtain ⟨d, i, j, hk, has, hbs⟩ := ih rfl
      exact ⟨d, i, j, hk, .stay hc has, hbs⟩
  | @up cur q rest k h ih =>
    rcases List.append_eq_cons_iff.mp hall with ⟨rfl, rfl⟩ | ⟨as', rfl, rfl⟩
    · exact ⟨cur, 0, k, (Nat.zero_add k).symm, .nil cur, .up h⟩
    · obtain ⟨d, i, j, hk, has, hbs⟩ := ih rfl
      exact ⟨d, i, j, hk, .up has, hbs⟩
  | @dir n cur q rest k hnode h ih =>
    rcases List.append_eq_cons_iff.mp hall with ⟨rfl, rfl⟩ | ⟨as', rfl, rfl⟩
    · exact ⟨cur, 0, k, (Nat.zero_add k).symm, .nil cur, .dir hnode h⟩
    · obtain ⟨d, i, j, hk, has, hbs⟩ := ih rfl
      exact ⟨d, i, j, hk, .dir hnode has, hbs⟩
  | @link n target cur q rest k hnode h ih =>
    rcases List.append_eq_cons_iff.mp hall with ⟨rfl, rfl⟩ | ⟨as', rfl, rfl⟩
    · exact ⟨cur, 0, k + 1, (Nat.zero_add _).symm, .nil cur, .link hnode h⟩
    · obtain ⟨d, i, j, hk, has, hbs⟩ := ih (List.append_assoc _ as' bs)
      exact ⟨d, i + 1, j, by omega, .link hnode has, hbs⟩

/-- A lookup that finds a directory is led there. -/
theorem leads_of_walk (h : t.walk true links cur as = .node q) (hq : t.IsDir q) :
    ∃ k ≤ links, t.Leads cur as k q := by
  have hfrom : ∀ (jump : Place → List Bytes → Found) (k : ℕ),
      (∀ cur as, jump cur as = .node q → ∃ j, j + 1 ≤ k ∧ t.Leads cur as j q) →
      ∀ as cur, t.walkFrom true jump cur as = .node q → ∃ j ≤ k, t.Leads cur as j q := by
    intro jump k hjump as
    induction as with
    | nil =>
      intro cur h
      obtain rfl := Found.node.inj h
      exact ⟨0, Nat.zero_le k, .nil cur⟩
    | cons c rest ih =>
      intro cur h
      rw [walkFrom] at h
      split at h
      · next hc =>
        obtain ⟨j, hj, hleads⟩ := ih cur h
        exact ⟨j, hj, .stay hc hleads⟩
      split at h
      · next hup =>
        obtain ⟨j, hj, hleads⟩ := ih cur.tail h
        exact ⟨j, hj, hup ▸ .up hleads⟩
      split at h
      · split at h <;> cases h
      · next a ha =>
        obtain ⟨j, hj, hleads⟩ := ih (c :: cur) h
        exact ⟨j, hj, .dir ⟨a, ha⟩ hleads⟩
      · next content hcontent =>
        split at h
        · obtain rfl := Found.node.inj h
          obtain ⟨a, ha⟩ := hq
          rw [hcontent] at ha
          cases ha
        · cases h
      · next target htarget =>
        rw [if_neg (by simp)] at h
        obtain ⟨j, hj, hleads⟩ := hjump _ _ h
        exact ⟨j + 1, hj, .link htarget hleads⟩
  induction links generalizing cur as with
  | zero => exact hfrom _ 0 (fun _ _ h ↦ by cases h) as cur h
  | succ links ih =>
    refine hfrom _ (links + 1) (fun cur as h ↦ ?_) as cur h
    obtain ⟨j, hj, hleads⟩ := ih h
    exact ⟨j, Nat.succ_le_succ hj, hleads⟩

/-- From a directory the way leads to directories only. -/
theorem Leads.isDir (h : t.Leads cur as k q) (hcur : t.IsDir cur) : t.IsDir q := by
  induction h with
  | nil => exact hcur
  | stay hc h ih => exact ih hcur
  | up h ih => exact ih hcur.tail
  | dir hnode h ih => exact ih hnode
  | @link n target cur q rest k hnode h ih =>
    refine ih ?_
    unfold base
    split
    · exact t.root
    · exact hcur

/-- The way is still there in a tree that keeps the directories and the links. -/
theorem Leads.mono (hdir : ∀ p, t.IsDir p → t'.IsDir p)
    (hlink : ∀ p target, t.node p = some (.link target) → t'.node p = some (.link target))
    (h : t.Leads cur as k q) : t'.Leads cur as k q := by
  induction h with
  | nil cur => exact .nil cur
  | stay hc h ih => exact .stay hc ih
  | up h ih => exact .up ih
  | dir hnode h ih => exact .dir (hdir _ hnode) ih
  | link hnode h ih => exact .link (hlink _ _ hnode) ih

/-- The lookup of a single component, with no link followed: a new entry could be there, or
something is. -/
theorem walk_single (hcur : t.IsDir cur) (hslash : slash ∉ c) (hzero : (0 : UInt8) ∉ c) :
    (t.Free c cur ∧ t.walk false links cur [c] = .absent (c :: cur)) ∨
      (¬ t.Free c cur ∧ ∃ p, t.walk false links cur [c] = .node p) := by
  by_cases hstay : c = [] ∨ c = str "."
  · exact .inr ⟨fun h ↦ h.2.1.not_stay hstay, cur, by rw [walk_stay hstay, walk_nil]⟩
  by_cases hup : c = str ".."
  · exact .inr ⟨fun h ↦ h.2.1.2.2.2.2 hup, cur.tail, by rw [hup, walk_up, walk_nil]⟩
  have hname : IsEntryName c :=
    ⟨fun h ↦ hstay (.inl h), hslash, hzero, fun h ↦ hstay (.inr h), hup⟩
  cases hnode : t.node (c :: cur) with
  | none => exact .inl ⟨⟨hcur, hname, hnode⟩, walk_absent hname hnode⟩
  | some x =>
    have hfull : ¬ t.Free c cur := fun h ↦ Option.some_ne_none x (hnode.symm.trans h.2.2)
    refine .inr ⟨hfull, c :: cur, ?_⟩
    cases x with
    | dir a => rw [walk_dir hname ⟨a, hnode⟩, walk_nil]
    | link target => exact walk_link_last hname hnode
    | file content => exact walk_file hname hnode

/-- All names on the way to a directory are proper. -/
theorem IsDir.isEntryName_of_mem (h : t.IsDir p) (hn : n ∈ p) : IsEntryName n := by
  induction p with
  | nil => cases hn
  | cons m p ih =>
    rcases List.mem_cons.mp hn with rfl | hn
    · exact h.isEntryName
    · exact ih h.tail hn

/-- The names of a directory lead to it from the root. -/
theorem leads_reverse (h : t.IsDir p) : t.Leads [] p.reverse 0 p := by
  induction p with
  | nil => exact .nil []
  | cons n p ih =>
    rw [List.reverse_cons]
    exact (ih h.tail).append (.dir h (.nil _))

/-! ### Texts of places -/

/-- The text of a place below the root. -/
theorem showPlace_cons (n : Bytes) (p : Place) :
    showPlace (n :: p) = (n :: p).reverse.flatMap (slash :: ·) := rfl

/-- The components on both sides of a slash. -/
theorem components_append (s s' : Bytes) :
    components (s ++ slash :: s') = components s ++ components s' :=
  List.splitOn_append_cons_self s s'

/-- The components of the text of a place: an empty one and the names. -/
theorem components_showPlace (hp : p ≠ []) (h : ∀ n ∈ p, slash ∉ n) :
    components (showPlace p) = [] :: p.reverse := by
  have hnames : ∀ q : Place, (∀ n ∈ q, slash ∉ n) →
      components (q.reverse.flatMap (slash :: ·)) = [] :: q.reverse := by
    intro q hq
    induction q with
    | nil => rfl
    | cons n q ih =>
      obtain ⟨hn, hq⟩ := List.forall_mem_cons.mp hq
      rw [List.reverse_cons, List.flatMap_append, List.flatMap_singleton, components_append, ih hq,
        components, List.splitOn_eq_singleton hn]
      rfl
  rw [showPlace, if_neg hp, hnames p h]

end FileTree

end MotionPie.Base
