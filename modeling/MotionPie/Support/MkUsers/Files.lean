import Mathlib.Data.List.Basic

/-!
# The files that mkusers edits

Records of `/etc/passwd`, `/etc/shadow`, `/etc/group` and `/etc/gshadow`, one structure a
line. Ids are the decimal numbers of the files, users and groups have a name. A field holds
no colon, and only a member list (or the administrators of a gshadow line) holds commas; a
member list is kept cut at its commas, so that every text has one reading, empty members
included. The second half is the sed script of `add_user_to_group`,
`support/scripts/mkusers:266-269`.
-/

namespace MotionPie.Support.MkUsers

/-- A name starts with a letter or `_` and goes on with letters, digits, `_` and `-`. -/
def isName (s : String) : Bool :=
  match s.toList with
  | [] => false
  | c :: cs => (c.isAlpha || c == '_') && cs.all fun d ↦ d.isAlphanum || d == '_' || d == '-'

/-- A user or group name. The regular expressions of sed and the comparisons of awk take
such a name literally. -/
abbrev Name := { s : String // isName s = true }

/-- No name is empty. -/
theorem Name.ne_empty (n : Name) : n.val ≠ "" := by
  intro h
  have hn := n.property
  rw [h] at hn
  revert hn
  decide

/-- Comma-separated text, cut at its commas: the empty text is one empty item. -/
structure MemberList where
  first : String
  rest : List String
  deriving DecidableEq, Repr

/-- A line of `/etc/passwd`. -/
structure PasswdLine where
  name : String
  passwd : String
  uid : Nat
  gid : Nat
  comment : String
  home : String
  shell : String
  name_ne : name ≠ ""
  deriving DecidableEq, Repr

/-- A line of `/etc/shadow`; `aging` is the seven fields after the password. -/
structure ShadowLine where
  name : String
  passwd : String
  aging : List String
  deriving DecidableEq, Repr

/-- A line of `/etc/group`. -/
structure GroupLine where
  name : String
  passwd : String
  gid : Nat
  members : MemberList
  name_ne : name ≠ ""
  deriving DecidableEq, Repr

/-- A line of `/etc/gshadow`. -/
structure GshadowLine where
  name : String
  passwd : String
  admins : MemberList
  members : MemberList
  deriving DecidableEq, Repr

namespace MemberList

/-- The empty text. -/
def empty : MemberList := ⟨"", []⟩

/-- All items, empty ones included. -/
def items (m : MemberList) : List String := m.first :: m.rest

/-- No member is empty, unless the whole text is. -/
def Clean (m : MemberList) : Prop := (m.first = "" → m.rest = []) ∧ "" ∉ m.rest

instance (m : MemberList) : Decidable m.Clean := inferInstanceAs (Decidable (_ ∧ _))

/-- Empty the last item that is `user`. -/
def blankLast (user : String) : List String → Option (List String)
  | [] => none
  | x :: xs =>
    match blankLast user xs with
    | some ys => some (x :: ys)
    | none => if x = user then some ("" :: xs) else none

/-- `s/^(GROUP:.*:)(([^:]+,)?)USER(,[^:]+*)?$/\1\2\4/`: the longest `\2` ends before the last
item that is `USER`, and a `\2` that is a single comma does not match. -/
def removeUser (user : String) (m : MemberList) : MemberList :=
  let skipped := if m.first = "" then m.rest.take 1 else []
  match blankLast user (m.rest.drop skipped.length) with
  | some ys => ⟨m.first, skipped ++ ys⟩
  | none => if m.first = user then ⟨"", m.rest⟩ else m

/-- `s/^(GROUP:.*)$/\1,USER/`. -/
def appendUser (user : String) (m : MemberList) : MemberList := ⟨m.first, m.rest ++ [user]⟩

/-- Drop the empty items at the front, but keep one item. -/
def squeezeRest : List String → List String
  | x :: y :: xs => if x = "" then squeezeRest (y :: xs) else x :: y :: xs
  | xs => xs

/-- `s/,+/,/`: the first run of commas becomes one comma. -/
def squeeze (m : MemberList) : MemberList := ⟨m.first, squeezeRest m.rest⟩

/-- `s/:,/:/`: the comma right after the colon goes. -/
def dropComma (m : MemberList) : MemberList :=
  match m.rest with
  | [] => m
  | x :: xs => if m.first = "" then ⟨x, xs⟩ else m

end MemberList

/-- The sed script of `add_user_to_group` on one line of `/etc/group`. The last two
commands apply to the lines of all groups. -/
def editGroupLine (user group : String) (l : GroupLine) : GroupLine :=
  let m := if l.name = group then (l.members.removeUser user).appendUser user else l.members
  { l with members := m.squeeze.dropComma }

/-- `s/,+/,/` on a gshadow line: the first run of commas may stand among the
administrators. -/
def GshadowLine.squeeze (l : GshadowLine) : GshadowLine :=
  if l.admins.rest = [] then { l with members := l.members.squeeze }
  else { l with admins := l.admins.squeeze }

/-- `s/:,/:/` on a gshadow line. -/
def GshadowLine.dropComma (l : GshadowLine) : GshadowLine :=
  if l.admins.first = "" ∧ l.admins.rest ≠ [] then { l with admins := l.admins.dropComma }
  else { l with members := l.members.dropComma }

/-- The same script on one line of `/etc/gshadow`. -/
def editGshadowLine (user group : String) (l : GshadowLine) : GshadowLine :=
  let m := if l.name = group then (l.members.removeUser user).appendUser user else l.members
  { l with members := m }.squeeze.dropComma

/-! ### The item that is removed -/

namespace MemberList

section Removal

variable {user : String} {xs ys : List String} {m : MemberList}

/-- Every item has a last place. -/
theorem exists_last (h : user ∈ xs) : ∃ as bs, xs = as ++ user :: bs ∧ user ∉ bs := by
  obtain ⟨bs, as, hrev, hbs⟩ := List.eq_append_cons_of_mem (List.mem_reverse.mpr h)
  refine ⟨as.reverse, bs.reverse, ?_, by simpa using hbs⟩
  rw [← List.reverse_reverse xs, hrev]
  simp

/-- There may be no item to empty. -/
theorem blankLast_of_notMem (h : user ∉ xs) : blankLast user xs = none := by
  induction xs with
  | nil => rfl
  | cons x xs ih =>
    simp only [List.mem_cons, not_or] at h
    rw [blankLast, ih h.2]
    simp [Ne.symm h.1]

/-- The last item is emptied. -/
theorem blankLast_append (xs : List String) (h : user ∉ ys) :
    blankLast user (xs ++ user :: ys) = some (xs ++ "" :: ys) := by
  induction xs with
  | nil =>
    rw [List.nil_append, blankLast, blankLast_of_notMem h]
    simp
  | cons x xs ih =>
    rw [List.cons_append, blankLast, ih]
    rfl

/-- A list without the user stays. -/
theorem removeUser_of_notMem (h : user ∉ m.items) : m.removeUser user = m := by
  simp only [items, List.mem_cons, not_or] at h
  have hblank : ∀ n, blankLast user (m.rest.drop n) = none :=
    fun n ↦ blankLast_of_notMem fun hmem ↦ h.2 (List.mem_of_mem_drop hmem)
  simp [removeUser, hblank, Ne.symm h.1]

/-- A list with the user in the second place only, behind an empty item, stays. -/
theorem removeUser_of_second (hu : user ≠ "") (hitems : m.items = "" :: user :: xs)
    (h : user ∉ xs) : m.removeUser user = m := by
  obtain ⟨hfirst, hrest⟩ := List.cons.inj hitems
  simp [removeUser, hfirst, hrest, blankLast_of_notMem h, Ne.symm hu]

/-- Elsewhere, the last item that is the user is emptied. -/
theorem items_removeUser (hu : user ≠ "") (hitems : m.items = xs ++ user :: ys)
    (hxs : xs ≠ [""]) (h : user ∉ ys) : (m.removeUser user).items = xs ++ "" :: ys := by
  match xs with
  | [] =>
    obtain ⟨hfirst, hrest⟩ := List.cons.inj hitems
    simp [removeUser, items, hfirst, hrest, hu, blankLast_of_notMem h]
  | x :: xs =>
    obtain ⟨rfl, hrest⟩ := List.cons.inj hitems
    by_cases hx : m.first = ""
    · -- the second item is skipped
      match xs with
      | [] => exact absurd (by rw [hx]) hxs
      | y :: xs =>
        have hblank := blankLast_append xs h
        simp [removeUser, items, hx, hrest, hblank]
    · have hblank := blankLast_append xs h
      simp [removeUser, items, hx, hrest, hblank]

end Removal

/-! ### Members after the edit -/

private theorem mem_blankLast {user : String} {xs ys : List String}
    (h : blankLast user xs = some ys) {m : String} (hm : m ≠ "") (hu : m ≠ user) :
    m ∈ ys ↔ m ∈ xs := by
  induction xs generalizing ys with
  | nil => simp [blankLast] at h
  | cons x xs ih =>
    rw [blankLast] at h
    cases hb : blankLast user xs with
    | some zs =>
      obtain rfl : x :: zs = ys := by simpa [hb] using h
      simp [ih hb]
    | none =>
      simp only [hb, Option.ite_none_right_eq_some, Option.some.injEq] at h
      obtain ⟨rfl, rfl⟩ := h
      simp [hm, hu]

/-- Removing a user keeps every other member. -/
theorem mem_removeUser {user m : String} (l : MemberList) (hm : m ≠ "") (hu : m ≠ user) :
    m ∈ (l.removeUser user).items ↔ m ∈ l.items := by
  have hsplit : ∀ n, m ∈ l.rest ↔ m ∈ l.rest.take n ∨ m ∈ l.rest.drop n := by
    intro n
    rw [← List.mem_append, List.take_append_drop]
  unfold removeUser
  by_cases hf : l.first = ""
  · simp only [hf, if_true]
    cases hb : blankLast user (l.rest.drop (l.rest.take 1).length) with
    | some ys =>
      have hys := mem_blankLast hb hm hu
      have hlen : (l.rest.take 1).length = min 1 l.rest.length := List.length_take
      have hdrop : l.rest.drop (l.rest.take 1).length = l.rest.drop 1 := by
        rw [hlen]
        cases l.rest <;> simp
      rw [hdrop] at hys
      simp [items, hys, hf, hsplit 1]
    | none =>
      simp only
      split
      · next he => simp [items, hf]
      · rfl
  · simp only [hf, if_false, List.length_nil, List.drop_zero]
    cases hb : blankLast user l.rest with
    | some ys => simp [items, mem_blankLast hb hm hu]
    | none =>
      simp only
      split
      · next he => simp [items, he, hm, hu]
      · rfl

private theorem mem_squeezeRest {m : String} (xs : List String) (hm : m ≠ "") :
    m ∈ squeezeRest xs ↔ m ∈ xs := by
  induction xs with
  | nil => simp [squeezeRest]
  | cons x xs ih =>
    cases xs with
    | nil => simp [squeezeRest]
    | cons y xs =>
      rw [squeezeRest]
      split
      · next hx => simp [ih, hx, hm]
      · rfl

/-- Squeezing keeps an item. -/
theorem squeezeRest_ne_nil {xs : List String} (h : xs ≠ []) : squeezeRest xs ≠ [] := by
  fun_induction squeezeRest xs with
  | case1 y xs ih => exact ih (by simp)
  | case2 x y xs hx => simp
  | case3 xs hxs => exact h

/-- Squeezing commas keeps every member. -/
theorem mem_squeeze {m : String} (l : MemberList) (hm : m ≠ "") :
    m ∈ l.squeeze.items ↔ m ∈ l.items := by
  simp [squeeze, items, mem_squeezeRest _ hm]

/-- Dropping a leading comma keeps every member. -/
theorem mem_dropComma {m : String} (l : MemberList) (hm : m ≠ "") :
    m ∈ l.dropComma.items ↔ m ∈ l.items := by
  unfold dropComma
  split
  · rfl
  · next x xs hr =>
    split
    · next hf => simp [items, hr, hf, hm]
    · rfl

/-- Squeezing leaves a clean list as it is. -/
theorem Clean.squeeze {l : MemberList} (h : l.Clean) : l.squeeze = l := by
  rcases l with ⟨first, rest⟩
  cases rest with
  | nil => rfl
  | cons x xs =>
    have hx : x ≠ "" := by
      rintro rfl
      exact h.2 (by simp)
    cases xs with
    | nil => rfl
    | cons y ys => simp [MemberList.squeeze, squeezeRest, hx]

/-- A clean list has no leading comma. -/
theorem Clean.dropComma {l : MemberList} (h : l.Clean) : l.dropComma = l := by
  rcases l with ⟨first, rest⟩
  cases rest with
  | nil => rfl
  | cons x xs =>
    have hf : first ≠ "" := fun he ↦ by simpa using h.1 he
    simp [MemberList.dropComma, hf]

end MemberList

/-- An edit keeps the name and gid of every group. -/
@[simp] theorem editGroupLine_name (user group : String) (l : GroupLine) :
    (editGroupLine user group l).name = l.name := rfl

/-- An edit keeps the gid of every group. -/
@[simp] theorem editGroupLine_gid (user group : String) (l : GroupLine) :
    (editGroupLine user group l).gid = l.gid := rfl

/-- An edit adds the user to the members of the group, and nobody else to any group. -/
theorem mem_editGroupLine {user group m : String} (l : GroupLine) (hm : m ≠ "") :
    m ∈ (editGroupLine user group l).members.items ↔
      m ∈ l.members.items ∨ (m = user ∧ l.name = group) := by
  simp only [editGroupLine, MemberList.mem_dropComma _ hm, MemberList.mem_squeeze _ hm]
  by_cases hg : l.name = group
  · by_cases hu : m = user
    · simp [hg, hu, MemberList.appendUser, MemberList.items]
    · have h := MemberList.mem_removeUser l.members hm hu
      simp only [MemberList.items, List.mem_cons] at h
      simp [hg, hu, MemberList.appendUser, MemberList.items, ← h]
  · simp [hg]

/-- An edit leaves the clean lines of other groups as they are. -/
theorem editGroupLine_of_ne {user group : String} {l : GroupLine} (hg : l.name ≠ group)
    (hc : l.members.Clean) : editGroupLine user group l = l := by
  simp [editGroupLine, hg, hc.squeeze, hc.dropComma]

@[simp] private theorem squeeze_name (l : GshadowLine) : l.squeeze.name = l.name := by
  unfold GshadowLine.squeeze
  split <;> rfl

@[simp] private theorem dropComma_name (l : GshadowLine) : l.dropComma.name = l.name := by
  unfold GshadowLine.dropComma
  split <;> rfl

/-- An edit keeps the name of every gshadow line. -/
@[simp] theorem editGshadowLine_name (user group : String) (l : GshadowLine) :
    (editGshadowLine user group l).name = l.name := by
  simp [editGshadowLine]

/-- An edit leaves the clean gshadow lines of other groups as they are. -/
theorem editGshadowLine_of_ne {user group : String} {l : GshadowLine} (hg : l.name ≠ group)
    (ha : l.admins.Clean) (hc : l.members.Clean) : editGshadowLine user group l = l := by
  have hsqueeze : l.squeeze = l := by
    simp [GshadowLine.squeeze, ha.squeeze, hc.squeeze]
  have hdrop : l.dropComma = l := by
    simp [GshadowLine.dropComma, ha.dropComma, hc.dropComma]
  simp [editGshadowLine, hg, hsqueeze, hdrop]

/-- A user added after two others: the comma left by an earlier removal survives, because
only the first run of commas is squeezed. -/
example : (editGroupLine "c" "g" ⟨"g", "x", 5, ⟨"a", ["b", "c"]⟩, by decide⟩).members =
    ⟨"a", ["b", "", "c"]⟩ := by decide

end MotionPie.Support.MkUsers
