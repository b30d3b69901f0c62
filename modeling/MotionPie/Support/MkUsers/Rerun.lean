import MotionPie.Support.MkUsers.Identity

/-!
# A second run

The build runs mkusers on one target directory for each root filesystem image,
`fs/common.mk:86-90`. A second run with the same table finds every gid and every uid in
place, passes the same checks, and writes the same lines in the same order.
-/

namespace MotionPie.Support.MkUsers

open Base

/-- No member list, nor list of administrators, has an empty member. -/
structure CleanLists (t : Target) : Prop where
  group : ∀ l ∈ t.group, l.members.Clean
  gshadow : ∀ ls ∈ t.gshadow, ∀ l ∈ ls, l.admins.Clean ∧ l.members.Clean

/-! ### The group passes again -/

/-- The user passes leave the clean line of a group of no row as it is. -/
theorem joinAll_of_notMem {us : List (Name × Row)} {l : GroupLine}
    (hg : ∀ o ∈ us, ∀ g ∈ o.2.groups, l.name ≠ g.val) (hc : l.members.Clean) :
    joinAll us l = l := by
  induction us with
  | nil => rfl
  | cons o us ih =>
    have hcons : joinAll (o :: us) l = joinAll us (joinGroup o.1 o.2.groups l) := rfl
    rw [hcons, joinGroup_of_notMem (hg o (by simp)) hc]
    exact ih fun p hp ↦ hg p (by simp [hp])

/-- The user passes keep the name of every gshadow line. -/
@[simp] theorem joinAllGshadow_name (us : List (Name × Row)) (l : GshadowLine) :
    (joinAllGshadow us l).name = l.name := by
  induction us generalizing l with
  | nil => rfl
  | cons o us ih => exact (ih _).trans (joinGshadow_name o.1 o.2.groups l)

/-- The user passes leave the clean gshadow line of a group of no row as it is. -/
theorem joinAllGshadow_of_notMem {us : List (Name × Row)} {l : GshadowLine}
    (hg : ∀ o ∈ us, ∀ g ∈ o.2.groups, l.name ≠ g.val) (ha : l.admins.Clean)
    (hc : l.members.Clean) : joinAllGshadow us l = l := by
  induction us with
  | nil => rfl
  | cons o us ih =>
    have hcons : joinAllGshadow (o :: us) l =
      joinAllGshadow us (joinGshadow o.1 o.2.groups l) := rfl
    rw [hcons, joinGshadow_of_notMem (hg o (by simp)) ha hc]
    exact ih fun p hp ↦ hg p (by simp [hp])

/-- Every group that a row lists is written by the group passes. -/
theorem written_of_userRow {table : List Row} {o : Name × Row} (ho : o ∈ userRows table)
    {g : Name} (hg : g ∈ o.2.groups) : g ∈ writtenGroups table :=
  mem_writtenGroups.mpr ⟨o.2, (mem_userRows.mp ho).1, .inr hg⟩

section Again

variable {env : Env} {table : List Row} {t mid out : Target}

/-- The group passes of a second run succeed, and leave the group files as those of the first
run did. -/
theorem addGroups_again (hg : GroupPhase table t mid)
    (hu : addUsers env (userRows table) mid = .ok out) (hc : CleanLists t)
    (fakeroot : List Chown) :
    addGroups (automaticGroups table) (afterExplicit table { out with fakeroot := fakeroot }) =
      .ok { out with group := mid.group, gshadow := mid.gshadow, fakeroot := fakeroot } := by
  -- in the second run, every group has a claim to the gid it had after the first
  have hclaim : ∀ g,
      claimedGids table { out with fakeroot := fakeroot } g = getGid mid g := by
    intro g
    unfold claimedGids
    cases he : explicitGid table g with
    | some n =>
      have hfirst : claimedGids table t g = [n] := by simp only [claimedGids, he]
      rw [hg.claimed g (by simp [hfirst]), hfirst]
    | none => exact getGid_addUsers hu g
  have hsingle : ∀ g ∈ automaticGroups table,
      ∃ n, getGid (afterExplicit table { out with fakeroot := fakeroot }) g = [n] := by
    intro g hmem
    rw [getGid_afterExplicit, hclaim g]
    exact hg.single g (List.mem_append_right _ hmem)
  obtain ⟨mid', hmid'⟩ := addGroups_of_getGid hsingle
  have hg' := groupPhase hmid'
  have hsame : ∀ g ∈ writtenGroups table, getGid mid' g = getGid mid g := by
    intro g hw
    obtain ⟨n, hn⟩ := hg.single g hw
    rw [hg'.claimed g (by simp [hclaim g, hn]), hclaim g]
  rw [hmid', Except.ok.injEq]
  refine Target.ext hg'.passwd hg'.shadow ?_ ?_ hg'.fakeroot
  · rw [hg'.group, List.map_congr_left fun g hw ↦ by rw [hsame g hw]]
    simp only [(addUsers_group hu).1]
    nth_rewrite 1 [hg.group]
    rw [upsertAll_replay_map (joinAll_name _), ← hg.group]
    intro l hl hkey
    refine joinAll_of_notMem (fun o ho g hgo he ↦ hkey ?_) (hc.group l hl)
    rw [he, List.map_map]
    exact List.mem_map_of_mem (f := Subtype.val) (written_of_userRow ho hgo)
  · rw [hg'.gshadow]
    simp only [(addUsers_group hu).2, hg.gshadow]
    cases hgs : t.gshadow with
    | none => rfl
    | some ls =>
      simp only [Option.map_some, Option.some.injEq]
      rw [upsertAll_replay_map (joinAllGshadow_name _)]
      intro l hl hkey
      obtain ⟨ha, hm⟩ := hc.gshadow ls (by simp [hgs]) l hl
      refine joinAllGshadow_of_notMem (fun o ho g hgo he ↦ hkey ?_) ha hm
      rw [he, List.map_map]
      exact List.mem_map_of_mem (f := Subtype.val) (written_of_userRow ho hgo)

end Again

/-! ### The user passes again -/

/-- A line of the one file is a line of the other, as far as name and ids go. -/
def IdsWithin (ls ls' : List PasswdLine) : Prop :=
  ∀ l ∈ ls, ∃ l' ∈ ls', l'.name = l.name ∧ l'.uid = l.uid ∧ l'.gid = l.gid

/-- How a second run follows the first. Both have made the same writes, the second one to the
files `out` that the first one ends with. -/
structure Follows (t out s s' : Target) : Prop where
  group : s'.group = s.group
  gshadow : s'.gshadow = s.gshadow
  fakeroot : s'.fakeroot = s.fakeroot
  names : (s'.passwd.map PasswdLine.name).Nodup
  within : IdsWithin s'.passwd out.passwd
  covers : IdsWithin out.passwd s'.passwd
  passwd : ∃ ls, s.passwd = upsertAll PasswdLine.name t.passwd ls ∧
    s'.passwd = upsertAll PasswdLine.name out.passwd ls
  shadow : ∃ ls, s.shadow = upsertAll ShadowLine.name t.shadow ls ∧
    s'.shadow = upsertAll ShadowLine.name out.shadow ls

/-- With distinct usernames, the ids of a user are those of its line. -/
theorem ids_of_mem {t : Target} (h : (t.passwd.map PasswdLine.name).Nodup) {l : PasswdLine}
    (hl : l ∈ t.passwd) : getUid t l.name = [l.uid] ∧ getUgid t l.name = [l.gid] := by
  have hline := filter_of_nodup h hl
  exact ⟨by rw [getUid, hline, List.map_singleton], by rw [getUgid, hline, List.map_singleton]⟩

/-- With one line of `u` and no other line of its uid, `u` is the user of the uid. -/
theorem getUsername_of_ids {t : Target} {u : String} {uid : Nat} (hu : getUid t u = [uid])
    (hown : ∀ l ∈ t.passwd, l.uid = uid → l.name = u) : getUsername t uid = [u] := by
  have h := lookup_inverse hu hown
  simpa only [getUsername, Int.ofNat_inj] using h

/-- With distinct gids, a group is the group of its gid. -/
theorem getGroup_of_ids {t : Target} (hd : Distinct t) {g : String} {n : Nat}
    (hg : getGid t g = [n]) : getGroup t n = [g] := by
  have hown : ∀ l ∈ t.group, l.gid = n → l.name = g := by
    intro l hl he
    exact (gids_nodup_iff hd.groups).mp hd.gids l.name g n
      (mem_getGid.mpr ⟨l, hl, rfl, he⟩) (by simp [hg])
  have h := lookup_inverse hg hown
  simpa only [getGroup, Int.ofNat_inj] using h

section Follow

variable {t out s s' : Target} {u : Name} {uid n : Nat} {g : String}

/-- A user that is set up at the end has its ids during the second run. -/
theorem Follows.ids (h : Follows t out s s') (hd : Distinct out)
    (hu : HasUser out u uid n g) :
    getUid s' u = [uid] ∧ getUgid s' u = [n] ∧ getUsername s' uid = [u.val] := by
  obtain ⟨l, hl, hname, hid⟩ := mem_getUid.mp (hu.hasUid ▸ List.mem_singleton_self uid)
  obtain ⟨huid, hugid⟩ := ids_of_mem hd.usernames hl
  rw [hname, hu.hasGid, List.singleton_inj] at hugid
  obtain ⟨l', hl', hname', huid', hugid'⟩ := h.covers l hl
  obtain ⟨hone, hgone⟩ := ids_of_mem h.names hl'
  rw [hname', hname, huid', hid] at hone
  rw [hname', hname, hugid', ← hugid] at hgone
  refine ⟨hone, hgone, getUsername_of_ids hone fun k hk he ↦ ?_⟩
  obtain ⟨k', hk', hkname, hkuid, -⟩ := h.within k hk
  rw [← hkname, ← hname]
  exact (nodup_val_iff hd.usernames).mp hd.uids k' hk' l hl (by rw [hkuid, he, hid])

/-- The second run makes the write that the first one makes. -/
theorem Follows.put (h : Follows t out s s') (hd : Distinct out) (hu : HasUser out u uid n g)
    (r : Row) (home passwd : String) :
    Follows t out (putUser u r uid n home passwd s) (putUser u r uid n home passwd s') := by
  obtain ⟨l, hl, hname, hid⟩ := mem_getUid.mp (hu.hasUid ▸ List.mem_singleton_self uid)
  obtain ⟨-, hugid⟩ := ids_of_mem hd.usernames hl
  rw [hname, hu.hasGid, List.singleton_inj] at hugid
  obtain ⟨ps, hps, hps'⟩ := h.passwd
  obtain ⟨ss, hss, hss'⟩ := h.shadow
  let line := passwdLine u uid n r.comment home (expandShell r.shell)
  refine ⟨by simp only [putUser, h.group], by simp only [putUser, h.gshadow],
    by simp only [putUser, h.fakeroot], nodup_upsert line h.names, ?_, ?_, ?_, ?_⟩
  · intro k hk
    rcases mem_upsert.mp hk with ⟨hk, -⟩ | rfl
    · exact h.within k hk
    · exact ⟨l, hl, hname, hid, hugid.symm⟩
  · intro k hk
    by_cases hku : k.name = u
    · -- the line of the user in `out` has the ids that are written
      have hkl : k = l :=
        List.inj_on_of_nodup_map hd.usernames hk hl (hku.trans hname.symm)
      exact ⟨line, mem_upsert.mpr (.inr rfl), by rw [hkl]; exact ⟨hname.symm, hid.symm, hugid⟩⟩
    · obtain ⟨k', hk', hids⟩ := h.covers k hk
      exact ⟨k', mem_upsert.mpr (.inl ⟨hk', by rw [hids.1]; exact hku⟩), hids⟩
  · refine ⟨ps ++ [line], ?_, ?_⟩
    · simp only [putUser, hps, upsertAll_append]
      rfl
    · simp only [putUser, hps', upsertAll_append]
      rfl
  · refine ⟨ss ++ [shadowLine u passwd], ?_, ?_⟩
    · simp only [putUser, hss, upsertAll_append]
      rfl
    · simp only [putUser, hss', upsertAll_append]
      rfl

/-- The second run chooses the uid that the first one chose. -/
private theorem chooseUid_again {id : Int} (huid : chooseUid s u id = .ok uid)
    (hone : getUid s' u = [uid]) : chooseUid s' u id = .ok uid := by
  unfold chooseUid at huid ⊢
  by_cases hid : id = -1
  · rw [if_pos hid, generateUid, hone]
    rfl
  · rw [if_neg hid] at huid ⊢
    exact huid

/-- The second run passes the checks that the first one passed. -/
private theorem Follows.valid (h : Follows t out s s') (hd : Distinct out) {r : Row}
    (hu : HasUser out u uid n r.group) (hgid : getGid s r.group = [n])
    (hgroup : getGroup s n = [r.group.val]) (hv : Valid s u r.uid r.group r.gid)
    (huid : chooseUid s u r.uid = .ok uid) : Valid s' u r.uid r.group r.gid := by
  obtain ⟨hone, hgone, hname⟩ := h.ids hd hu
  have hgetGid : ∀ k, getGid s' k = getGid s k := fun k ↦ by rw [getGid, h.group, getGid]
  have hgetGroup : ∀ id, getGroup s' id = getGroup s id := fun id ↦ by
    rw [getGroup, h.group, getGroup]
  refine ⟨hv.notRoot, hv.gidRange, fun hne ↦ ?_, fun hne ↦ ?_, fun hne ↦ ?_, hv.uidRange,
    fun hne ↦ ?_, fun hne ↦ ?_, ?_⟩
  · rw [hgetGroup]
    exact hv.gidFree hne
  · rw [hgetGid]
    exact hv.groupGid hne
  · -- the user has the gid of the group, and that is the explicit gid
    have hexplicit := hv.groupGid hne
    rw [hgid] at hexplicit
    rw [hgone]
    exact hexplicit
  · have hexplicit : ((r.uid.toNat : Nat) : Int) = r.uid := by have := hv.uidRange.1; omega
    rw [chooseUid, if_neg hne, Except.ok.injEq] at huid
    rw [← huid, hexplicit] at hname
    exact usedByOther_eq_false.mpr (.inr hname)
  · rw [chooseUid, if_neg hne, Except.ok.injEq] at huid
    rw [hone, differs_singleton, ← huid]
    have := hv.uidRange.1
    omega
  · simp only [getUgroup, hgone, hgetGroup, hgroup]
    exact usedByOther_eq_false.mpr (.inr rfl)

end Follow

/-- The user passes of a second run succeed, and end with the files of the first run. -/
theorem addUsers_again {env : Env} {table : List Row} {t mid out : Target}
    (hg : GroupPhase table t mid) (hu : addUsers env (userRows table) mid = .ok out)
    (hd : Distinct out) :
    addUsers env (userRows table)
      { out with group := mid.group, gshadow := mid.gshadow, fakeroot := t.fakeroot } =
        .ok out := by
  have hinit : Follows t out mid
      { out with group := mid.group, gshadow := mid.gshadow, fakeroot := t.fakeroot } := by
    refine ⟨rfl, rfl, hg.fakeroot.symm, hd.usernames, ?_, ?_, ⟨[], ?_, rfl⟩, ⟨[], ?_, rfl⟩⟩
    · exact fun l hl ↦ ⟨l, hl, rfl, rfl, rfl⟩
    · exact fun l hl ↦ ⟨l, hl, rfl, rfl, rfl⟩
    · rw [hg.passwd, upsertAll_nil]
    · rw [hg.shadow, upsertAll_nil]
  obtain ⟨out', hrun, hfollows⟩ := foldlM_sim (fun _ ↦ Follows t out) hu hinit (by
    rintro pre ⟨u, r⟩ post s₁ s₂ s' hsplit hstep hpost hfollows
    obtain ⟨hv, hlen, hdir, uid, home, passwd, huid, hhome, hpasswd, rfl⟩ :=
      addOneUser_ok.mp hstep
    have hrest : addUsers env ((u, r) :: post) s₁ = .ok out := foldlM_cons_ok.mpr ⟨_, hstep, hpost⟩
    have hrow : (u, r) ∈ userRows table := by simp [hsplit]
    have hw : r.group ∈ writtenGroups table :=
      mem_writtenGroups.mpr ⟨r, (mem_userRows.mp hrow).1, .inl ⟨rfl, hv.gidRange.1⟩⟩
    obtain ⟨n, hn⟩ := hg.single r.group hw
    have hout : getGid out r.group = [n] := (getGid_addUsers hu _).trans hn
    have hgid : getGid s₁ r.group = [n] := (getGid_addUsers hrest _).symm.trans hout
    have hgroup : getGroup s₁ n = [r.group.val] :=
      (getGroup_addUsers hrest _).symm.trans (getGroup_of_ids hd hout)
    rw [hgid, List.headD_cons] at hpost ⊢
    have huser : HasUser out u uid n r.group := by
      refine HasUser.run ⟨getUid_putUser_self, getUgid_putUser_self, ?_, shadow_putUser_self⟩ hpost
      rw [getGid_putUser, hgid]
    have hgid' : getGid s' r.group = [n] := by rw [getGid, hfollows.group, ← getGid, hgid]
    refine ⟨_, addOneUser_ok.mpr ⟨hfollows.valid hd huser hgid hgroup hv huid, by simp [hgid'],
      hdir, uid, home, passwd, chooseUid_again huid (hfollows.ids hd huser).1, hhome, hpasswd,
      rfl⟩, ?_⟩
    rw [hgid', List.headD_cons]
    exact hfollows.put hd huser r home passwd)
  obtain ⟨ps, hps, hps'⟩ := hfollows.passwd
  obtain ⟨ss, hss, hss'⟩ := hfollows.shadow
  have hsame : out' = out := by
    refine Target.ext ?_ ?_ hfollows.group hfollows.gshadow hfollows.fakeroot
    · rw [hps', upsertAll_replay (by rw [← hps]), ← hps]
    · rw [hss', upsertAll_replay (by rw [← hss]), ← hss]
  rw [← hsame]
  exact hsame ▸ hrun

/-- A second run on what the first one left succeeds, leaves every file as it is, and prints
the same lines for the fakeroot script. -/
theorem main_idempotent {env : Env} {table : List Row} {t out : Target}
    (h : main env table t = .ok out) (hc : CleanLists t) (hd : Distinct out) :
    main env table { out with fakeroot := t.fakeroot } = .ok out := by
  obtain ⟨mid, hgroups, hu⟩ := main_ok.mp h
  have hg := groupPhase hgroups
  exact main_ok.mpr ⟨_, addGroups_again hg hu hc t.fakeroot, addUsers_again hg hu hd⟩

/-- A second run of a table that adds a user to a group. -/
theorem main_idempotent_service : ∃ out, main plainEnv [serviceRow] audioFiles = .ok out ∧
    main plainEnv [serviceRow] { out with fakeroot := [] } = .ok out := by
  obtain ⟨out, hout, hd⟩ := exists_of_any (x := main plainEnv [serviceRow] audioFiles)
    (p := fun out ↦ decide (Distinct out)) (by decide +kernel)
  have hc : CleanLists audioFiles := ⟨by decide, by simp [audioFiles]⟩
  exact ⟨out, hout, main_idempotent hout hc (of_decide_eq_true hd)⟩

end MotionPie.Support.MkUsers
