import Mathlib.Tactic.MkIffOfInductiveProp
import MotionPie.Support.MkUsers.Groups

/-!
# The users of a run

What a successful `add_one_user` has checked and what it writes,
`support/scripts/mkusers:284-356`. The user passes keep the name and gid of every group
line, so that the gids the group passes end with are those that every later check sees.
-/

namespace MotionPie.Support.MkUsers

open Base

/-! ### The checks -/

/-- What `check_user_validity` lets through. -/
@[mk_iff] structure Valid (t : Target) (username : Name) (uid : Int) (group : Name) (gid : Int) :
    Prop where
  notRoot : username.val ≠ "root"
  gidRange : -1 ≤ gid ∧ gid ≠ 0
  gidFree : gid ≠ -1 → usedByOther (getGroup t gid) group = false
  groupGid : gid ≠ -1 → differs (getGid t group) gid = false
  userGid : gid ≠ -1 → differs (getUgid t username) gid = false
  uidRange : -1 ≤ uid ∧ uid ≠ 0
  uidFree : uid ≠ -1 → usedByOther (getUsername t uid) username = false
  userUid : uid ≠ -1 → differs (getUid t username) uid = false
  userGroup : usedByOther (getUgroup t username) group = false

private theorem reject_ok {test : Bool} {e : Failure} {x : Unit} :
    reject test e = .ok x ↔ test = false := by
  cases test <;> simp [reject]

/-- The checks pass exactly for valid rows. -/
theorem checkUserValidity_ok {t : Target} {username : Name} {uid : Int} {group : Name}
    {gid : Int} : checkUserValidity t username uid group gid = .ok () ↔
      Valid t username uid group gid := by
  unfold checkUserValidity
  rw [valid_iff]
  by_cases hg : gid = -1 <;> by_cases hu : uid = -1
  · simp [bind_ok, reject_ok, hg, hu]
  · simp [bind_ok, reject_ok, hg, hu, and_assoc]
  · simp [bind_ok, reject_ok, hg, hu, and_assoc]
  · simp [bind_ok, reject_ok, hg, hu, and_assoc]

/-! ### One user -/

/-- The calls of `add_user_to_group` for one user, on a line of `/etc/group`. -/
def joinGroup (username : Name) (groups : List Name) (l : GroupLine) : GroupLine :=
  groups.foldl (fun l g ↦ editGroupLine username g l) l

/-- The same calls on a line of `/etc/gshadow`. -/
def joinGshadow (username : Name) (groups : List Name) (l : GshadowLine) : GshadowLine :=
  groups.foldl (fun l g ↦ editGshadowLine username g l) l

/-- The effect of `add_one_user` once its uid, gid, home and password are known. -/
def putUser (username : Name) (r : Row) (uid gid : Nat) (home passwd : String) (t : Target) :
    Target where
  passwd := upsert PasswdLine.name t.passwd
    (passwdLine username uid gid r.comment home (expandShell r.shell))
  shadow := upsert ShadowLine.name t.shadow (shadowLine username passwd)
  group := t.group.map (joinGroup username r.groups)
  gshadow := t.gshadow.map (List.map (joinGshadow username r.groups))
  fakeroot := t.fakeroot ++ if r.home = "-" then [] else [⟨uid, gid, r.home⟩]

private theorem addUserToGroup_foldl (username : Name) (groups : List Name) (t : Target) :
    groups.foldl (fun t g ↦ addUserToGroup username g t) t =
      { t with
        group := t.group.map (joinGroup username groups)
        gshadow := t.gshadow.map (List.map (joinGshadow username groups)) } := by
  induction groups generalizing t with
  | nil =>
    have hgroup : joinGroup username [] = id := rfl
    have hgshadow : joinGshadow username [] = id := rfl
    rw [hgroup, hgshadow, List.map_id, List.map_id_fun, Option.map_id]
    rfl
  | cons g groups ih =>
    have hgroup : joinGroup username (g :: groups) =
        joinGroup username groups ∘ editGroupLine username g := rfl
    have hgshadow : joinGshadow username (g :: groups) =
        joinGshadow username groups ∘ editGshadowLine username g := rfl
    rw [List.foldl_cons, ih, hgroup, hgshadow]
    simp [addUserToGroup, Function.comp_def]

private theorem mapError_ok {ε ε' α : Type} {x : Except ε α} {f : ε → ε'} {a : α} :
    x.mapError f = .ok a ↔ x = .ok a := by
  cases x <;> simp [Except.mapError]

private theorem writeUser_ok {env : Env} {username : Name} {r : Row} {uid : Nat}
    {gids : List Nat} {home passwd : String} {t t' : Target} :
    writeUser env username r uid gids home passwd (removeUser username t) = .ok t' ↔
      gids.length ≤ 1 ∧ (r.home = "-" ∨ env.mkdir r.home = true) ∧
        t' = putUser username r uid (gids.headD 0) home passwd t := by
  simp only [writeUser, addUserToGroup_foldl]
  by_cases hlen : 1 < gids.length
  · have hnot : ¬ gids.length ≤ 1 := by omega
    simp [hlen, hnot]
  have hle : gids.length ≤ 1 := by omega
  by_cases hhome : r.home = "-"
  · rw [if_neg hlen, if_pos hhome, Except.ok.injEq, putUser, if_pos hhome, List.append_nil]
    exact ⟨fun h ↦ ⟨hle, .inl hhome, h.symm⟩, fun h ↦ h.2.2.symm⟩
  rw [if_neg hlen, if_neg hhome]
  by_cases hdir : env.mkdir r.home = true
  · rw [if_pos hdir, Except.ok.injEq, putUser, if_neg hhome]
    exact ⟨fun h ↦ ⟨hle, .inr hdir, h.symm⟩, fun h ↦ h.2.2.symm⟩
  · simp [hhome, hdir]

/-- When `add_one_user` succeeds, and with which effect. -/
theorem addOneUser_ok {env : Env} {username : Name} {r : Row} {t t' : Target} :
    addOneUser env username r t = .ok t' ↔
      Valid t username r.uid r.group r.gid ∧ (getGid t r.group).length ≤ 1 ∧
      (r.home = "-" ∨ env.mkdir r.home = true) ∧ ∃ uid home passwd,
        chooseUid t username r.uid = .ok uid ∧ expandHome r.home = .ok home ∧
        expandPasswd env r.passwd = .ok passwd ∧
        t' = putUser username r uid ((getGid t r.group).headD 0) home passwd t := by
  have hgid : getGid (removeUser username t) r.group = getGid t r.group := rfl
  simp only [addOneUser, bind_ok, mapError_ok, writeUser_ok, hgid]
  constructor
  · rintro ⟨⟨⟩, hcheck, uid, huid, home, hhome, passwd, hpasswd, hlen, hdir, ht⟩
    exact ⟨checkUserValidity_ok.mp hcheck, hlen, hdir, uid, home, passwd, huid, hhome, hpasswd, ht⟩
  · rintro ⟨hvalid, hlen, hdir, uid, home, passwd, huid, hhome, hpasswd, ht⟩
    exact ⟨(), checkUserValidity_ok.mpr hvalid, uid, huid, home, hhome, passwd, hpasswd, hlen,
      hdir, ht⟩

/-! ### The group files during the user passes -/

/-- Joining groups keeps the name of every group. -/
@[simp] theorem joinGroup_name (u : Name) (gs : List Name) (l : GroupLine) :
    (joinGroup u gs l).name = l.name := by
  induction gs generalizing l with
  | nil => rfl
  | cons g gs ih => exact ih (editGroupLine u g l)

/-- Joining groups keeps the gid of every group. -/
@[simp] theorem joinGroup_gid (u : Name) (gs : List Name) (l : GroupLine) :
    (joinGroup u gs l).gid = l.gid := by
  induction gs generalizing l with
  | nil => rfl
  | cons g gs ih => exact ih (editGroupLine u g l)

/-- Joining groups adds the user to the members of these groups, and nothing else. -/
theorem mem_joinGroup {u : Name} {gs : List Name} {m : String} (l : GroupLine) (hm : m ≠ "") :
    m ∈ (joinGroup u gs l).members.items ↔
      m ∈ l.members.items ∨ (m = u ∧ ∃ g ∈ gs, l.name = g.val) := by
  induction gs generalizing l with
  | nil => simp [joinGroup]
  | cons g gs ih =>
    have hcons : joinGroup u (g :: gs) l = joinGroup u gs (editGroupLine u g l) := rfl
    rw [hcons, ih, mem_editGroupLine l hm, editGroupLine_name, or_assoc, ← and_or_left,
      List.exists_mem_cons_iff]

/-- Joining groups leaves the clean line of another group as it is. -/
theorem joinGroup_of_notMem {u : Name} {gs : List Name} {l : GroupLine}
    (hg : ∀ g ∈ gs, l.name ≠ g.val) (hc : l.members.Clean) : joinGroup u gs l = l := by
  induction gs with
  | nil => rfl
  | cons g gs ih =>
    have hcons : joinGroup u (g :: gs) l = joinGroup u gs (editGroupLine u g l) := rfl
    rw [hcons, editGroupLine_of_ne (hg g (by simp)) hc]
    exact ih fun k hk ↦ hg k (by simp [hk])

/-- Joining groups keeps the name of every gshadow line. -/
@[simp] theorem joinGshadow_name (u : Name) (gs : List Name) (l : GshadowLine) :
    (joinGshadow u gs l).name = l.name := by
  induction gs generalizing l with
  | nil => rfl
  | cons g gs ih => exact (ih (editGshadowLine u g l)).trans (editGshadowLine_name u g l)

/-- Joining groups leaves the clean gshadow line of another group as it is. -/
theorem joinGshadow_of_notMem {u : Name} {gs : List Name} {l : GshadowLine}
    (hg : ∀ g ∈ gs, l.name ≠ g.val) (ha : l.admins.Clean) (hc : l.members.Clean) :
    joinGshadow u gs l = l := by
  induction gs with
  | nil => rfl
  | cons g gs ih =>
    have hcons : joinGshadow u (g :: gs) l = joinGshadow u gs (editGshadowLine u g l) := rfl
    rw [hcons, editGshadowLine_of_ne (hg g (by simp)) ha hc]
    exact ih fun k hk ↦ hg k (by simp [hk])

/-- The edits of several users to a line of `/etc/group`. -/
def joinAll (us : List (Name × Row)) (l : GroupLine) : GroupLine :=
  us.foldl (fun l o ↦ joinGroup o.1 o.2.groups l) l

/-- The edits of several users to a line of `/etc/gshadow`. -/
def joinAllGshadow (us : List (Name × Row)) (l : GshadowLine) : GshadowLine :=
  us.foldl (fun l o ↦ joinGshadow o.1 o.2.groups l) l

/-- The user passes keep the name of every group. -/
@[simp] theorem joinAll_name (us : List (Name × Row)) (l : GroupLine) :
    (joinAll us l).name = l.name := by
  induction us generalizing l with
  | nil => rfl
  | cons o us ih => exact (ih _).trans (joinGroup_name o.1 o.2.groups l)

/-- The user passes keep the gid of every group. -/
@[simp] theorem joinAll_gid (us : List (Name × Row)) (l : GroupLine) :
    (joinAll us l).gid = l.gid := by
  induction us generalizing l with
  | nil => rfl
  | cons o us ih => exact (ih _).trans (joinGroup_gid o.1 o.2.groups l)

/-- The members that a group has after the user passes. -/
theorem mem_joinAll {us : List (Name × Row)} {m : String} (l : GroupLine) (hm : m ≠ "") :
    m ∈ (joinAll us l).members.items ↔
      m ∈ l.members.items ∨ ∃ o ∈ us, m = o.1 ∧ ∃ g ∈ o.2.groups, l.name = g.val := by
  induction us generalizing l with
  | nil => simp [joinAll]
  | cons o us ih =>
    have hcons : joinAll (o :: us) l = joinAll us (joinGroup o.1 o.2.groups l) := rfl
    rw [hcons, ih, mem_joinGroup l hm, joinGroup_name, or_assoc, List.exists_mem_cons_iff]

/-- The user passes edit the lines of the group files one by one. -/
theorem addUsers_group {env : Env} {us : List (Name × Row)} {t t' : Target}
    (h : addUsers env us t = .ok t') : t'.group = t.group.map (joinAll us) ∧
      t'.gshadow = t.gshadow.map (List.map (joinAllGshadow us)) := by
  refine foldlM_inv (fun pre s ↦ s.group = t.group.map (joinAll pre) ∧
    s.gshadow = t.gshadow.map (List.map (joinAllGshadow pre))) h ?_ ?_
  · have hgroup : joinAll [] = id := rfl
    have hgshadow : joinAllGshadow [] = id := rfl
    rw [hgroup, hgshadow, List.map_id, List.map_id_fun, Option.map_id]
    exact ⟨rfl, rfl⟩
  · rintro pre o post s₁ s₂ - ⟨hg, hs⟩ hstep
    obtain ⟨-, -, -, uid, home, passwd, -, -, -, rfl⟩ := addOneUser_ok.mp hstep
    have hgroup : joinAll (pre ++ [o]) = joinGroup o.1 o.2.groups ∘ joinAll pre := by
      funext l
      simp [joinAll]
    have hgshadow : joinAllGshadow (pre ++ [o]) =
        joinGshadow o.1 o.2.groups ∘ joinAllGshadow pre := by
      funext l
      simp [joinAllGshadow]
    simp [putUser, hg, hs, hgroup, hgshadow, Function.comp_def]

/-- The gid of a group during the user passes. -/
theorem getGid_addUsers {env : Env} {us : List (Name × Row)} {t t' : Target}
    (h : addUsers env us t = .ok t') (g : String) : getGid t' g = getGid t g := by
  simp [getGid, (addUsers_group h).1, List.filter_map, Function.comp_def]

/-- The groups of a gid during the user passes. -/
theorem getGroup_addUsers {env : Env} {us : List (Name × Row)} {t t' : Target}
    (h : addUsers env us t = .ok t') (gid : Int) : getGroup t' gid = getGroup t gid := by
  simp [getGroup, (addUsers_group h).1, List.filter_map, Function.comp_def]

/-! ### The lines of a user -/

/-- A user has the uids of its lines. -/
theorem mem_getUid {t : Target} {u : String} {n : Nat} :
    n ∈ getUid t u ↔ ∃ l ∈ t.passwd, l.name = u ∧ l.uid = n := by
  simp [getUid, and_assoc]

/-- The users of a uid are those that have it. -/
theorem mem_getUsername {t : Target} {u : String} {n : Nat} :
    u ∈ getUsername t n ↔ n ∈ getUid t u := by
  rw [mem_getUid]
  simp only [getUsername, List.mem_map, List.mem_filter, decide_eq_true_eq, Int.ofNat_inj]
  constructor
  · rintro ⟨l, ⟨hl, hn⟩, hu⟩
    exact ⟨l, hl, hu, hn⟩
  · rintro ⟨l, hl, hu, hn⟩
    exact ⟨l, ⟨hl, hn⟩, hu⟩

section PutUser

variable {u : Name} {r : Row} {uid gid : Nat} {home passwd : String} {t : Target}

private theorem passwd_putUser_self :
    ((putUser u r uid gid home passwd t).passwd.filter fun l ↦ l.name = u.val) =
      [passwdLine u uid gid r.comment home (expandShell r.shell)] :=
  filter_upsert_self t.passwd (passwdLine u uid gid r.comment home (expandShell r.shell))

private theorem passwd_putUser_of_ne {v : String} (hv : v ≠ u) :
    ((putUser u r uid gid home passwd t).passwd.filter fun l ↦ l.name = v) =
      t.passwd.filter fun l ↦ l.name = v :=
  filter_upsert_of_ne t.passwd hv

/-- A written user has the uid it was given. -/
theorem getUid_putUser_self : getUid (putUser u r uid gid home passwd t) u = [uid] := by
  rw [getUid, passwd_putUser_self]
  rfl

/-- A written user has the gid it was given. -/
theorem getUgid_putUser_self : getUgid (putUser u r uid gid home passwd t) u = [gid] := by
  rw [getUgid, passwd_putUser_self]
  rfl

/-- Writing a user leaves the uids of the others alone. -/
theorem getUid_putUser_of_ne {v : String} (hv : v ≠ u) :
    getUid (putUser u r uid gid home passwd t) v = getUid t v := by
  rw [getUid, passwd_putUser_of_ne hv, getUid]

/-- Writing a user leaves the gids of the others alone. -/
theorem getUgid_putUser_of_ne {v : String} (hv : v ≠ u) :
    getUgid (putUser u r uid gid home passwd t) v = getUgid t v := by
  rw [getUgid, passwd_putUser_of_ne hv, getUgid]

/-- Writing a user changes no gid of a group. -/
theorem getGid_putUser (g : String) :
    getGid (putUser u r uid gid home passwd t) g = getGid t g := by
  simp [getGid, putUser, List.filter_map, Function.comp_def]

/-- Writing a user leaves one shadow line of it. -/
theorem shadow_putUser_self :
    ((putUser u r uid gid home passwd t).shadow.filter fun l ↦ l.name = u.val).length = 1 := by
  have h : ((putUser u r uid gid home passwd t).shadow.filter fun l ↦ l.name = u.val) =
      [shadowLine u passwd] := filter_upsert_self t.shadow (shadowLine u passwd)
  rw [h, List.length_singleton]

/-- Writing a user leaves the shadow lines of the others alone. -/
theorem shadow_putUser_of_ne {v : String} (hv : v ≠ u) :
    ((putUser u r uid gid home passwd t).shadow.filter fun l ↦ l.name = v) =
      t.shadow.filter fun l ↦ l.name = v :=
  filter_upsert_of_ne t.shadow hv

end PutUser

/-! ### What a later row can change -/

/-- The tests of `usedByOther` that fail. -/
theorem usedByOther_eq_false {out : List String} {name : String} :
    usedByOther out name = false ↔ out = [] ∨ out = [name] := by
  simp only [usedByOther, decide_eq_false_iff_not, not_and_or, not_not]

/-- The tests of `differs` on one line that fail. -/
theorem differs_singleton {n : Nat} {id : Int} : differs [n] id = false ↔ (n : Int) = id := by
  simp [differs]

/-- The uid of a user, once it has one, is what every later row of the user writes. -/
theorem chooseUid_of_getUid {t : Target} {u : Name} {g : Name} {uid gid : Int} {n m : Nat}
    (hv : Valid t u uid g gid) (hn : getUid t u = [n]) (hm : chooseUid t u uid = .ok m) :
    m = n := by
  unfold chooseUid at hm
  split at hm
  · simpa [generateUid, generateId, hn, eq_comm] using hm
  · next hne =>
    have hid := hv.userUid hne
    rw [hn, differs_singleton] at hid
    obtain rfl := Except.ok.inj hm
    omega

/-- No row changes the uid that a user has. -/
theorem getUid_addOneUser {env : Env} {t t' : Target} {u : String} {n : Nat} {v : Name}
    {r : Row} (hn : getUid t u = [n]) (h : addOneUser env v r t = .ok t') :
    getUid t' u = [n] := by
  obtain ⟨hv, -, -, uid, home, passwd, huid, -, -, rfl⟩ := addOneUser_ok.mp h
  by_cases he : u = v
  · subst he
    rw [getUid_putUser_self, chooseUid_of_getUid hv hn huid]
  · rw [getUid_putUser_of_ne he, hn]

/-- No run of rows changes the uid that a user has. -/
theorem getUid_addUsers {env : Env} {us : List (Name × Row)} {t t' : Target} {u : String}
    {n : Nat} (hn : getUid t u = [n]) (h : addUsers env us t = .ok t') : getUid t' u = [n] :=
  foldlM_preserves (fun s ↦ getUid s u = [n]) h hn fun _ _ _ _ hs hstep ↦
    getUid_addOneUser hs hstep

/-- The user `u` is set up, with its uid, its main group `g` and the gid of the group. -/
structure HasUser (t : Target) (u : String) (uid gid : Nat) (g : String) : Prop where
  hasUid : getUid t u = [uid]
  hasGid : getUgid t u = [gid]
  hasGroup : getGid t g = [gid]
  oneShadow : (t.shadow.filter fun l ↦ l.name = u).length = 1

/-- A row sets its user up. -/
theorem addOneUser_hasUser {env : Env} {u : Name} {r : Row} {t t' : Target} {n : Nat}
    (h : addOneUser env u r t = .ok t') (hn : getGid t r.group = [n]) :
    ∃ uid, HasUser t' u uid n r.group := by
  obtain ⟨-, -, -, uid, home, passwd, -, -, -, rfl⟩ := addOneUser_ok.mp h
  refine ⟨uid, getUid_putUser_self, ?_, ?_, shadow_putUser_self⟩
  · rw [getUgid_putUser_self, hn, List.headD_cons]
  · rw [getGid_putUser, hn]

/-- A row of a user that is set up has the main group of the user. -/
theorem HasUser.group_eq {t : Target} {u : Name} {uid gid : Nat} {g : String} {r : Row}
    (hu : HasUser t u uid gid g) (hv : Valid t u r.uid r.group r.gid) : r.group.val = g := by
  have hg : g ∈ getGroup t gid := mem_getGroup.mpr (by simp [hu.hasGroup])
  have hused := hv.userGroup
  simp only [getUgroup, hu.hasGid] at hused
  rcases usedByOther_eq_false.mp hused with hnone | hone
  · simp [hnone] at hg
  · rw [hone, List.mem_singleton] at hg
    exact hg.symm

/-- No row changes a user that is set up. -/
theorem HasUser.step {env : Env} {t t' : Target} {u : String} {uid gid : Nat} {g : String}
    {v : Name} {r : Row} (hu : HasUser t u uid gid g) (h : addOneUser env v r t = .ok t') :
    HasUser t' u uid gid g := by
  have huid := getUid_addOneUser hu.hasUid h
  obtain ⟨hv, -, -, uid', home, passwd, -, -, -, rfl⟩ := addOneUser_ok.mp h
  have hgroup := hu.hasGroup
  rw [← getGid_putUser] at hgroup
  by_cases he : u = v
  · subst he
    refine ⟨huid, ?_, hgroup, shadow_putUser_self⟩
    rw [getUgid_putUser_self, hu.group_eq hv, hu.hasGroup, List.headD_cons]
  · refine ⟨huid, ?_, hgroup, ?_⟩
    · rw [getUgid_putUser_of_ne he, hu.hasGid]
    · rw [shadow_putUser_of_ne he, hu.oneShadow]

/-- No later run of rows changes a user that is set up. -/
theorem HasUser.run {env : Env} {t t' : Target} {u : String} {uid gid : Nat} {g : String}
    {us : List (Name × Row)} (hu : HasUser t u uid gid g) (h : addUsers env us t = .ok t') :
    HasUser t' u uid gid g :=
  foldlM_preserves (HasUser · u uid gid g) h hu fun _ _ _ _ hs hstep ↦ hs.step hstep

/-! ### Which rows and groups a run works on -/

/-- The user passes work on the rows with a username and a uid from -1. -/
theorem mem_userRows {table : List Row} {u : Name} {r : Row} :
    (u, r) ∈ userRows table ↔ r ∈ table ∧ r.username = some u ∧ -1 ≤ r.uid := by
  simp only [userRows, List.mem_append, List.mem_filterMap, Option.ite_none_right_eq_some,
    Option.map_eq_some_iff, Prod.mk.injEq]
  constructor
  · rintro (⟨_, hr, hid, _, hu, rfl, rfl⟩ | ⟨_, hr, hid, _, hu, rfl, rfl⟩)
    · exact ⟨hr, hu, by omega⟩
    · exact ⟨hr, hu, by omega⟩
  · rintro ⟨hr, hu, hid⟩
    by_cases hpos : 0 ≤ r.uid
    · exact .inl ⟨r, hr, hpos, u, hu, rfl, rfl⟩
    · exact .inr ⟨r, hr, by omega, u, hu, rfl, rfl⟩

/-- The group passes work on the main groups with a gid from -1 and on the additional groups. -/
theorem mem_writtenGroups {table : List Row} {g : Name} :
    g ∈ writtenGroups table ↔
      ∃ r ∈ table, (r.group = g ∧ -1 ≤ r.gid) ∨ g ∈ r.groups := by
  simp only [writtenGroups, explicitGroups, automaticGroups, List.mem_append, List.mem_map,
    List.mem_filterMap, List.mem_filter, List.mem_flatMap, Option.ite_none_right_eq_some,
    Option.some.injEq, decide_eq_true_eq]
  constructor
  · rintro (⟨_, ⟨r, hr, hid, rfl⟩, rfl⟩ | ⟨r, ⟨hr, hid⟩, rfl⟩ | ⟨r, hr, hg⟩)
    · exact ⟨r, hr, .inl ⟨rfl, by omega⟩⟩
    · exact ⟨r, hr, .inl ⟨rfl, by omega⟩⟩
    · exact ⟨r, hr, .inr hg⟩
  · rintro ⟨r, hr, ⟨rfl, hid⟩ | hg⟩
    · by_cases hpos : 0 ≤ r.gid
      · exact .inl ⟨_, ⟨r, hr, hpos, rfl⟩, rfl⟩
      · exact .inr (.inl ⟨r, ⟨hr, by omega⟩, rfl⟩)
    · exact .inr (.inr ⟨r, hr, hg⟩)

end MotionPie.Support.MkUsers
