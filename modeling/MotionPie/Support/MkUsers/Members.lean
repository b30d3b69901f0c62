import MotionPie.Support.MkUsers.Plan
import MotionPie.Support.MkUsers.Users

/-!
# What a run leaves in the files

Which groups of before a run of `main` survive it, and what it leaves for each row. A group
that the table names is written anew, without members, and only the users of its rows are
added back. A row whose uid is neither -1 nor a uid is skipped by both user passes, before
any check.
-/

namespace MotionPie.Support.MkUsers

open Base

/-! ### Lines after a run -/

section Lines

variable {env : Env} {table : List Row} {t mid out : Target}

/-- The lines of a group after a run. -/
private theorem filter_out (hu : addUsers env (userRows table) mid = .ok out) (g : String) :
    (out.group.filter fun l ↦ l.name = g) =
      (mid.group.filter fun l ↦ l.name = g).map (joinAll (userRows table)) := by
  simp [(addUsers_group hu).1, List.filter_map, Function.comp_def]

/-- The one line of a group that the table names. -/
private theorem filter_out_of_mem (hg : GroupPhase table t mid)
    (hu : addUsers env (userRows table) mid = .ok out) {g : Name}
    (hw : g ∈ writtenGroups table) :
    ∃ n, getGid mid g = [n] ∧ (out.group.filter fun l ↦ l.name = g.val) =
      [joinAll (userRows table) (groupLine g n)] := by
  obtain ⟨n, hn⟩ := hg.single g hw
  exact ⟨n, hn, by rw [filter_out hu, hg.filter_of_mem hw hn, List.map_singleton]⟩

/-- A line is that of a group with one line exactly when it has its name. -/
private theorem mem_iff_of_filter {ls : List GroupLine} {g : String} {x : GroupLine}
    (h : (ls.filter fun l ↦ l.name = g) = [x]) (l : GroupLine) :
    l ∈ ls ∧ l.name = g ↔ l = x := by
  have hin : l ∈ [x] ↔ l ∈ ls ∧ l.name = g := by
    rw [← h, List.mem_filter, decide_eq_true_eq]
  rw [← hin, List.mem_singleton]

/-- The members that the line of a written group ends with. -/
private theorem mem_joinAll_groupLine {g : Name} {n : Nat} {us : List (Name × Row)} {m : String}
    (hm : m ≠ "") : m ∈ (joinAll us (groupLine g n)).members.items ↔
      ∃ o ∈ us, m = o.1 ∧ g ∈ o.2.groups := by
  have hempty : m ∉ (groupLine g n).members.items := by
    simpa [groupLine, MemberList.empty, MemberList.items] using hm
  have hname : ∀ k : Name, (groupLine g n).name = k.val ↔ k = g :=
    fun k ↦ ⟨fun h ↦ Subtype.ext h.symm, fun h ↦ h ▸ rfl⟩
  simp [mem_joinAll _ hm, hempty, hname]

end Lines

/-! ### The groups of before -/

/-- Every group of before is still there, with its gid and its members. -/
def GroupsPreserved (t out : Target) : Prop :=
  ∀ l ∈ t.group, ∃ l' ∈ out.group, l'.name = l.name ∧ l'.gid = l.gid ∧
    ∀ m ∈ l.members.items, m ≠ "" → m ∈ l'.members.items

/-- The table asks for a group. -/
def AsksFor (r : Row) (g : String) : Prop :=
  (r.group.val = g ∧ -1 ≤ r.gid) ∨ ∃ k ∈ r.groups, k.val = g

/-- The last explicit gid of the table for the group, if any, is the one it has, and if the
table asks for the group, then each member has a row that lists the group. -/
def Restored (table : List Row) (l : GroupLine) : Prop :=
  (∀ n, explicitGid table l.name = some n → n = l.gid) ∧
    ((∃ r ∈ table, AsksFor r l.name) → ∀ m ∈ l.members.items, m ≠ "" →
      ∃ r ∈ table, ∃ u, r.username = some u ∧ -1 ≤ r.uid ∧ u.val = m ∧
        ∃ k ∈ r.groups, k.val = l.name)

private theorem asksFor_iff {table : List Row} {g : String} :
    (∃ r ∈ table, AsksFor r g) ↔ ∃ k ∈ writtenGroups table, k.val = g := by
  simp only [mem_writtenGroups, AsksFor]
  constructor
  · rintro ⟨r, hr, ⟨rfl, hid⟩ | ⟨k, hk, rfl⟩⟩
    · exact ⟨r.group, ⟨r, hr, .inl ⟨rfl, hid⟩⟩, rfl⟩
    · exact ⟨k, ⟨r, hr, .inr hk⟩, rfl⟩
  · rintro ⟨k, ⟨r, hr, ⟨rfl, hid⟩ | hk⟩, rfl⟩
    · exact ⟨r, hr, .inl ⟨rfl, hid⟩⟩
    · exact ⟨r, hr, .inr ⟨k, hk, rfl⟩⟩

private theorem written_of_explicitGid {table : List Row} {g : String} {n : Nat}
    (h : explicitGid table g = some n) : ∃ k ∈ writtenGroups table, k.val = g := by
  obtain ⟨o, ho, -⟩ := Option.map_eq_some_iff.mp h
  obtain ⟨hmem, hname⟩ := List.mem_filter.mp (List.mem_of_getLast? ho)
  exact ⟨o.1, List.mem_append_left _ (List.mem_map_of_mem hmem), by simpa using hname⟩

private theorem gid_restored {table : List Row} {t mid : Target} (hg : GroupPhase table t mid)
    {l : GroupLine} (hl : getGid t l.name = [l.gid]) {n : Nat} (hn : getGid mid l.name = [n]) :
    n = l.gid ↔ ∀ m, explicitGid table l.name = some m → m = l.gid := by
  cases he : explicitGid table l.name with
  | none =>
    have hclaim : claimedGids table t l.name = [l.gid] := by simp only [claimedGids, he, hl]
    have hmid := hg.claimed l.name (by simp [hclaim])
    rw [hclaim, hn, List.singleton_inj] at hmid
    simp [hmid]
  | some m =>
    have hclaim : claimedGids table t l.name = [m] := by simp only [claimedGids, he]
    have hmid := hg.claimed l.name (by simp [hclaim])
    rw [hclaim, hn, List.singleton_inj] at hmid
    simp [hmid]

private theorem mem_userRows_iff {table : List Row} {g : Name} {m : String} :
    (∃ o ∈ userRows table, m = o.1 ∧ g ∈ o.2.groups) ↔
      ∃ r ∈ table, ∃ u, r.username = some u ∧ -1 ≤ r.uid ∧ u.val = m ∧ g ∈ r.groups := by
  constructor
  · rintro ⟨⟨u, r⟩, ho, rfl, hg⟩
    obtain ⟨hr, hu, hid⟩ := mem_userRows.mp ho
    exact ⟨r, hr, u, hu, hid, rfl, hg⟩
  · rintro ⟨r, hr, u, hu, hid, rfl, hg⟩
    exact ⟨(u, r), mem_userRows.mpr ⟨hr, hu, hid⟩, rfl, hg⟩

private theorem audio_ne : "audio" ≠ "" := by decide

private theorem audio_isName : isName "audio" = true := by decide

/-- Files with one group and one member. -/
def memberFiles : Target :=
  ⟨[], [], [⟨"audio", "x", 29, ⟨"bob", []⟩, audio_ne⟩], none, []⟩

/-- A row that asks for a group only, one that exists with another gid. -/
def regroupRow : Row := ⟨none, -1, ⟨"audio", audio_isName⟩, 30, "*", "-", "-", [], "-"⟩

/-- What a row asks for: one line of its user in both files, in its main group, and the user
a member of its additional groups. -/
structure RowMet (out : Target) (u : Name) (r : Row) : Prop where
  onePasswd : (out.passwd.filter fun l ↦ l.name = u.val).length = 1
  oneShadow : (out.shadow.filter fun l ↦ l.name = u.val).length = 1
  primary : ∃ n, getUgid out u = [n] ∧ getGid out r.group = [n]
  member : ∀ g ∈ r.groups, ∃ l ∈ out.group, l.name = g.val ∧ u.val ∈ l.members.items

/-- The primary gids that the table leads to: those planned for the main group of the rows of
the user, or those of before when every row of the user is skipped. -/
def plannedUgids (table : List Row) (t : Target) (u : Name) : List Nat :=
  match (userRows table).find? fun o ↦ o.1 = u with
  | some o => plannedGids table t o.2.group
  | none => getUgid t u

/-- A skipped row asks for nothing that the files of before and the other rows of its user do
not give anyway. -/
structure GivenAnyway (table : List Row) (t : Target) (u : Name) (r : Row) : Prop where
  lines : (∃ s ∈ table, s.username = some u ∧ -1 ≤ s.uid) ∨
    ((t.passwd.filter fun l ↦ l.name = u.val).length = 1 ∧
      (t.shadow.filter fun l ↦ l.name = u.val).length = 1)
  primary : ∃ n, plannedUgids table t u = [n] ∧ plannedGids table t r.group = [n]
  member : ∀ g ∈ r.groups, ∃ s ∈ table, s.username = some u ∧ -1 ≤ s.uid ∧ g ∈ s.groups

/-- The lines of a user without a row stay as they are. -/
theorem filter_of_noRow {env : Env} {us : List (Name × Row)} {t out : Target} {u : Name}
    (h : addUsers env us t = .ok out) (hno : ∀ r, (u, r) ∉ us) :
    (out.passwd.filter fun l ↦ l.name = u.val) = (t.passwd.filter fun l ↦ l.name = u.val) ∧
      (out.shadow.filter fun l ↦ l.name = u.val) = t.shadow.filter fun l ↦ l.name = u.val := by
  refine foldlM_preserves (fun s ↦
    (s.passwd.filter fun l ↦ l.name = u.val) = (t.passwd.filter fun l ↦ l.name = u.val) ∧
      (s.shadow.filter fun l ↦ l.name = u.val) = t.shadow.filter fun l ↦ l.name = u.val)
    h ⟨rfl, rfl⟩ ?_
  rintro ⟨v, r⟩ ho s₁ s₂ ⟨hp, hs⟩ hstep
  obtain ⟨-, -, -, uid, home, passwd, -, -, -, rfl⟩ := addOneUser_ok.mp hstep
  have hne : u.val ≠ v := by
    intro he
    obtain rfl : u = v := Subtype.ext he
    exact hno r ho
  exact ⟨(filter_upsert_of_ne s₁.passwd hne).trans hp, (filter_upsert_of_ne s₁.shadow hne).trans hs⟩

section Rows

variable {env : Env} {table : List Row} {t mid out : Target}

/-- A row that is not skipped sets its user up. -/
theorem hasUser_of_row (hg : GroupPhase table t mid)
    (hu : addUsers env (userRows table) mid = .ok out) {u : Name} {r : Row}
    (ho : (u, r) ∈ userRows table) : ∃ uid n, HasUser out u uid n r.group := by
  obtain ⟨pre, post, s₁, s₂, -, hpre, hstep, hpost⟩ := foldlM_split hu ho
  have hv := (addOneUser_ok.mp hstep).1
  have hw : r.group ∈ writtenGroups table :=
    mem_writtenGroups.mpr ⟨r, (mem_userRows.mp ho).1, .inl ⟨rfl, hv.gidRange.1⟩⟩
  obtain ⟨n, hn⟩ := hg.single r.group hw
  obtain ⟨uid, huser⟩ := addOneUser_hasUser hstep ((getGid_addUsers hpre r.group).trans hn)
  exact ⟨uid, n, huser.run hpost⟩

private theorem member_iff (hg : GroupPhase table t mid)
    (hu : addUsers env (userRows table) mid = .ok out) {u g : Name}
    (hw : g ∈ writtenGroups table) :
    (∃ l ∈ out.group, l.name = g.val ∧ u.val ∈ l.members.items) ↔
      ∃ s ∈ table, s.username = some u ∧ -1 ≤ s.uid ∧ g ∈ s.groups := by
  obtain ⟨n, -, hline⟩ := filter_out_of_mem hg hu hw
  have hmember : (∃ l ∈ out.group, l.name = g.val ∧ u.val ∈ l.members.items) ↔
      u.val ∈ (joinAll (userRows table) (groupLine g n)).members.items := by
    simp only [← and_assoc, mem_iff_of_filter hline, exists_eq_left]
  rw [hmember, mem_joinAll_groupLine u.ne_empty, mem_userRows_iff]
  refine exists_congr fun s ↦ and_congr_right fun _ ↦ ⟨?_, ?_⟩
  · rintro ⟨v, hv, hid, he, hgs⟩
    exact ⟨Subtype.ext he ▸ hv, hid, hgs⟩
  · rintro ⟨hv, hid, hgs⟩
    exact ⟨u, hv, hid, rfl, hgs⟩

/-- A row that is not skipped is met. -/
theorem rowMet_of_row (hg : GroupPhase table t mid)
    (hu : addUsers env (userRows table) mid = .ok out) {u : Name} {r : Row}
    (ho : (u, r) ∈ userRows table) : RowMet out u r := by
  obtain ⟨uid, n, huser⟩ := hasUser_of_row hg hu ho
  obtain ⟨hr, hname, hid⟩ := mem_userRows.mp ho
  have hlen := congrArg List.length huser.hasUid
  rw [getUid, List.length_map, List.length_singleton] at hlen
  refine ⟨hlen, huser.oneShadow, ⟨n, huser.hasGid, huser.hasGroup⟩, fun g hgr ↦ ?_⟩
  exact (member_iff hg hu (mem_writtenGroups.mpr ⟨r, hr, .inr hgr⟩)).mpr ⟨r, hr, hname, hid, hgr⟩

/-- The primary gids after a run. -/
theorem getUgid_eq_plannedUgids
    (hgroups : addGroups (automaticGroups table) (afterExplicit table t) = .ok mid)
    (hu : addUsers env (userRows table) mid = .ok out) (u : Name) :
    getUgid out u = plannedUgids table t u := by
  have hg := groupPhase hgroups
  unfold plannedUgids
  split
  · next o ho =>
    obtain rfl : o.1 = u := by simpa using List.find?_some ho
    obtain ⟨uid, n, huser⟩ := hasUser_of_row hg hu (List.mem_of_find?_eq_some ho)
    rw [huser.hasGid, ← getGid_eq_plannedGids hgroups, ← getGid_addUsers hu, huser.hasGroup]
  · next hnone =>
    have hno : ∀ r, (u, r) ∉ userRows table := fun r hr ↦ by
      simpa using List.find?_eq_none.mp hnone (u, r) hr
    rw [getUgid, (filter_of_noRow hu hno).1, hg.passwd, getUgid]

/-- A skipped row is met exactly when it asks for what is given anyway. -/
theorem rowMet_of_skipped
    (hgroups : addGroups (automaticGroups table) (afterExplicit table t) = .ok mid)
    (hu : addUsers env (userRows table) mid = .ok out) {u : Name} {r : Row} (hr : r ∈ table) :
    RowMet out u r ↔ GivenAnyway table t u r := by
  have hg := groupPhase hgroups
  have hprimary : (∃ n, getUgid out u = [n] ∧ getGid out r.group = [n]) ↔
      ∃ n, plannedUgids table t u = [n] ∧ plannedGids table t r.group = [n] := by
    rw [getUgid_eq_plannedUgids hgroups hu, getGid_addUsers hu, getGid_eq_plannedGids hgroups]
  have hmember : ∀ g ∈ r.groups, ((∃ l ∈ out.group, l.name = g.val ∧ u.val ∈ l.members.items) ↔
      ∃ s ∈ table, s.username = some u ∧ -1 ≤ s.uid ∧ g ∈ s.groups) :=
    fun g hgr ↦ member_iff hg hu (mem_writtenGroups.mpr ⟨r, hr, .inr hgr⟩)
  by_cases hrow : ∃ s ∈ table, s.username = some u ∧ -1 ≤ s.uid
  · obtain ⟨s, hs, hname, hid⟩ := hrow
    have hmet := rowMet_of_row hg hu (mem_userRows.mpr ⟨hs, hname, hid⟩)
    exact ⟨fun h ↦ ⟨.inl ⟨s, hs, hname, hid⟩, hprimary.mp h.primary, fun g hgr ↦
        (hmember g hgr).mp (h.member g hgr)⟩,
      fun h ↦ ⟨hmet.onePasswd, hmet.oneShadow, hprimary.mpr h.primary, fun g hgr ↦
        (hmember g hgr).mpr (h.member g hgr)⟩⟩
  · have hno : ∀ s, (u, s) ∉ userRows table := by
      intro s hs
      obtain ⟨hs, hname, hid⟩ := mem_userRows.mp hs
      exact hrow ⟨s, hs, hname, hid⟩
    obtain ⟨hp, hsh⟩ := filter_of_noRow hu hno
    rw [hg.passwd] at hp
    rw [hg.shadow] at hsh
    constructor
    · intro h
      exact ⟨.inr ⟨hp ▸ h.onePasswd, hsh ▸ h.oneShadow⟩, hprimary.mp h.primary, fun g hgr ↦
        (hmember g hgr).mp (h.member g hgr)⟩
    · intro h
      obtain ⟨h₁, h₂⟩ := h.lines.resolve_left hrow
      exact ⟨hp ▸ h₁, hsh ▸ h₂, hprimary.mpr h.primary, fun g hgr ↦
        (hmember g hgr).mpr (h.member g hgr)⟩

end Rows

/-- Every row with a user is met exactly when each skipped one asks for what is given anyway. -/
theorem main_rowMet_iff {env : Env} {table : List Row} {t out : Target}
    (h : main env table t = .ok out) :
    (∀ r ∈ table, ∀ u, r.username = some u → RowMet out u r) ↔
      ∀ r ∈ table, ∀ u, r.username = some u → r.uid < -1 → GivenAnyway table t u r := by
  obtain ⟨mid, hgroups, hu⟩ := main_ok.mp h
  constructor
  · intro hall r hr u hname _
    exact (rowMet_of_skipped hgroups hu hr).mp (hall r hr u hname)
  · intro hskipped r hr u hname
    by_cases hid : r.uid < -1
    · exact (rowMet_of_skipped hgroups hu hr).mpr (hskipped r hr u hname hid)
    · exact rowMet_of_row (groupPhase hgroups) hu (mem_userRows.mpr ⟨hr, hname, by omega⟩)

/-- The equivalence, for a run that adds a user to a group. -/
theorem main_rowMet_iff_service : ∃ out, main plainEnv [serviceRow] audioFiles = .ok out ∧
    ((∀ r ∈ [serviceRow], ∀ u, r.username = some u → RowMet out u r) ↔
      ∀ r ∈ [serviceRow], ∀ u, r.username = some u → r.uid < -1 →
        GivenAnyway [serviceRow] audioFiles u r) := by
  obtain ⟨out, hout⟩ := exists_of_isOk (x := main plainEnv [serviceRow] audioFiles)
    (by decide +kernel)
  exact ⟨out, hout, main_rowMet_iff hout⟩

/-- A user of the table is in no line of passwd, and no error is reported. -/
theorem main_omits_user : ∃ out, main plainEnv [skippedRow] audioFiles = .ok out ∧
    ¬ ∀ r ∈ [skippedRow], ∀ u, r.username = some u → RowMet out u r := by
  refine ⟨_, rfl, fun h ↦ ?_⟩
  have hone := (h skippedRow (by simp) _ rfl).onePasswd
  revert hone
  decide

end MotionPie.Support.MkUsers
