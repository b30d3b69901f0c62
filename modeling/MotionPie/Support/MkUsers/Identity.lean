import MotionPie.Support.MkUsers.Users

/-!
# Who gets which id

The ids of a run of `main`. Group names, usernames and uids stay distinct. Gids need not:
a row without a user passes none of the checks of `check_user_validity`, so an explicit
gid may be one that another group has. Explicit ids win over automatic ones in any row
order, and automatic ids are free when they are given.
-/

namespace MotionPie.Support.MkUsers

open Base

/-- No two groups share a name or a gid, and no two users share a name or a uid. -/
structure Distinct (t : Target) : Prop where
  groups : (t.group.map GroupLine.name).Nodup
  gids : (t.group.map GroupLine.gid).Nodup
  usernames : (t.passwd.map PasswdLine.name).Nodup
  uids : (t.passwd.map PasswdLine.uid).Nodup

instance (t : Target) : Decidable (Distinct t) :=
  decidable_of_iff ((t.group.map GroupLine.name).Nodup ∧ (t.group.map GroupLine.gid).Nodup ∧
      (t.passwd.map PasswdLine.name).Nodup ∧ (t.passwd.map PasswdLine.uid).Nodup)
    ⟨fun ⟨h₁, h₂, h₃, h₄⟩ ↦ ⟨h₁, h₂, h₃, h₄⟩, fun ⟨h₁, h₂, h₃, h₄⟩ ↦ ⟨h₁, h₂, h₃, h₄⟩⟩

/-- With distinct group names, gids are distinct when no two groups share one. -/
theorem gids_nodup_iff {t : Target} (h : (t.group.map GroupLine.name).Nodup) :
    (t.group.map GroupLine.gid).Nodup ↔
      ∀ g k n, n ∈ getGid t g → n ∈ getGid t k → g = k := by
  rw [nodup_val_iff h]
  constructor
  · intro hinj g k n hg hk
    obtain ⟨a, ha, rfl, rfl⟩ := mem_getGid.mp hg
    obtain ⟨b, hb, rfl, he⟩ := mem_getGid.mp hk
    exact hinj a ha b hb he.symm
  · intro hinj a ha b hb he
    exact hinj _ _ b.gid (mem_getGid.mpr ⟨a, ha, rfl, he⟩) (mem_getGid.mpr ⟨b, hb, rfl, rfl⟩)

/-- With distinct usernames, a user has no uid or one. -/
theorem getUid_cases {t : Target} (h : (t.passwd.map PasswdLine.name).Nodup) (u : String) :
    getUid t u = [] ∨ ∃ n, getUid t u = [n] := by
  rcases filter_of_nodup_cases h u with hnil | ⟨l, hl⟩
  · exact .inl (by rw [getUid, hnil, List.map_nil])
  · exact .inr ⟨l.uid, by rw [getUid, hl, List.map_singleton]⟩

/-! ### Names and uids stay distinct -/

/-- A run keeps group names distinct. -/
theorem groups_nodup {env : Env} {table : List Row} {t mid out : Target}
    (hg : GroupPhase table t mid) (hu : addUsers env (userRows table) mid = .ok out)
    (h : (t.group.map GroupLine.name).Nodup) : (out.group.map GroupLine.name).Nodup := by
  have hnames : out.group.map GroupLine.name = mid.group.map GroupLine.name := by
    simp [(addUsers_group hu).1]
  rw [hnames, hg.group]
  exact nodup_upsertAll _ h

/-- The uid that a row writes belongs to nobody else. -/
theorem chooseUid_owner {t : Target} {u g : Name} {uid gid : Int} {n : Nat}
    (hd : (t.passwd.map PasswdLine.name).Nodup) (hi : (t.passwd.map PasswdLine.uid).Nodup)
    (hv : Valid t u uid g gid) (hn : chooseUid t u uid = .ok n) {l : PasswdLine}
    (hl : l ∈ t.passwd) (he : l.uid = n) : l.name = u := by
  have hmem : l.name ∈ getUsername t n := mem_getUsername.mpr (mem_getUid.mpr ⟨l, hl, rfl, he⟩)
  unfold chooseUid at hn
  split at hn
  · rcases generateId_ok hn with hone | ⟨-, -, -, hfree, -⟩
    · obtain ⟨k, hk, hname, huid⟩ := mem_getUid.mp (hone ▸ List.mem_singleton_self n)
      rw [← hname]
      exact (nodup_val_iff hd).mp hi l hl k hk (he.trans huid.symm)
    · have hempty : getUsername t n = [] := by simpa using hfree
      simp [hempty] at hmem
  · next hne =>
    obtain rfl := Except.ok.inj hn
    have hcast : ((uid.toNat : Nat) : Int) = uid := by have := hv.uidRange.1; omega
    rw [hcast] at hmem
    rcases usedByOther_eq_false.mp (hv.uidFree hne) with hnone | hone
    · simp [hnone] at hmem
    · rw [hone, List.mem_singleton] at hmem
      exact hmem

/-- The user passes keep usernames and uids distinct. -/
theorem users_nodup {env : Env} {us : List (Name × Row)} {t t' : Target}
    (h : addUsers env us t = .ok t') (hd : (t.passwd.map PasswdLine.name).Nodup)
    (hi : (t.passwd.map PasswdLine.uid).Nodup) :
    (t'.passwd.map PasswdLine.name).Nodup ∧ (t'.passwd.map PasswdLine.uid).Nodup := by
  refine foldlM_preserves (fun s ↦ (s.passwd.map PasswdLine.name).Nodup ∧
    (s.passwd.map PasswdLine.uid).Nodup) h ⟨hd, hi⟩ ?_
  rintro ⟨u, r⟩ - s₁ s₂ ⟨hd, hi⟩ hstep
  obtain ⟨hv, -, -, uid, home, passwd, huid, -, -, rfl⟩ := addOneUser_ok.mp hstep
  have hnames := nodup_upsert (passwdLine u uid ((getGid s₁ r.group).headD 0) r.comment home
    (expandShell r.shell)) hd
  refine ⟨hnames, (nodup_val_iff hnames).mpr ?_⟩
  -- a line that shares the written uid is a line of the user, so it has been removed
  have hother : ∀ l ∈ s₁.passwd, l.uid = uid → l.name = u.val :=
    fun l hl he ↦ chooseUid_owner hd hi hv huid hl he
  intro a ha b hb he
  rcases mem_upsert.mp ha with ⟨ha, hane⟩ | rfl <;> rcases mem_upsert.mp hb with ⟨hb, hbne⟩ | rfl
  · exact (nodup_val_iff hd).mp hi a ha b hb he
  · exact absurd (hother a ha he) hane
  · exact absurd (hother b hb he.symm) hbne
  · rfl

/-! ### Which gids collide -/

/-- No gid is claimed by two groups. -/
def ClaimedOnce (table : List Row) (t : Target) : Prop :=
  ∀ g k n, n ∈ claimedGids table t g → n ∈ claimedGids table t k → g = k

/-- The gids end up distinct exactly when no gid is claimed twice. -/
theorem gids_nodup {env : Env} {table : List Row} {t mid out : Target}
    (hg : GroupPhase table t mid) (hu : addUsers env (userRows table) mid = .ok out)
    (h : (t.group.map GroupLine.name).Nodup) :
    (out.group.map GroupLine.gid).Nodup ↔ ClaimedOnce table t := by
  have hmet : ∀ g n, n ∈ claimedGids table t g → n ∈ getGid mid g := by
    intro g n hn
    rwa [hg.claimed g (List.ne_nil_of_mem hn)]
  rw [gids_nodup_iff (groups_nodup hg hu h)]
  simp only [getGid_addUsers hu]
  constructor
  · intro hinj g k n hgn hkn
    exact hinj g k n (hmet g n hgn) (hmet k n hkn)
  · intro honce g k n hgn hkn
    by_cases hcg : claimedGids table t g = []
    · exact ((hg.fresh g n hcg hgn).2.2 k hkn).symm
    by_cases hck : claimedGids table t k = []
    · exact (hg.fresh k n hck hkn).2.2 g hgn
    · exact honce g k n (hg.claimed g hcg ▸ hgn) (hg.claimed k hck ▸ hkn)

/-- A row that asks for a group only, with the gid of `audio`. -/
def soundRow : Row := ⟨none, -1, ⟨"sound", by decide⟩, 29, "*", "-", "-", [], "-"⟩

private theorem audioFiles_distinct : Distinct audioFiles := by decide

/-- The explicit ids of the table fit together and fit the files: no name has two, no two
names have the same one, and none belongs to another name already. -/
structure ExplicitConsistent (table : List Row) (t : Target) : Prop where
  gids : ∀ r ∈ table, ∀ s ∈ table, r.gid ≠ -1 → s.gid ≠ -1 → (r.group = s.group ↔ r.gid = s.gid)
  gidOwner : ∀ r ∈ table, r.gid ≠ -1 → ∀ g n, n ∈ getGid t g → (n : Int) = r.gid → g = r.group
  uids : ∀ r ∈ table, ∀ s ∈ table, ∀ u v, r.username = some u → s.username = some v →
    r.uid ≠ -1 → s.uid ≠ -1 → (u = v ↔ r.uid = s.uid)
  uidOwner : ∀ r ∈ table, ∀ u, r.username = some u → r.uid ≠ -1 →
    ∀ v n, n ∈ getUid t v → (n : Int) = r.uid → v = u

/-- A name has its id of before, if it had one, and else one from the automatic range. -/
def KeptOrAutomatic (before after : List Nat) : Prop :=
  (before ≠ [] → after = before) ∧
    (before = [] → ∃ n, 1000 ≤ n ∧ n ≤ 1999 ∧ after = [n])

/-- Every name of the table has the id it should have, and ids are distinct. -/
structure IdsAsAsked (table : List Row) (t out : Target) : Prop where
  explicitGids : ∀ r ∈ table, r.gid ≠ -1 → (getGid out r.group).map Int.ofNat = [r.gid]
  otherGids : ∀ g : Name, (∃ r ∈ table, r.group = g ∨ g ∈ r.groups) →
    (∀ r ∈ table, r.group = g → r.gid = -1) → KeptOrAutomatic (getGid t g) (getGid out g)
  explicitUids : ∀ r ∈ table, ∀ u, r.username = some u → r.uid ≠ -1 →
    (getUid out u).map Int.ofNat = [r.uid]
  otherUids : ∀ u, (∃ r ∈ table, r.username = some u) →
    (∀ r ∈ table, r.username = some u → r.uid = -1) → KeptOrAutomatic (getUid t u) (getUid out u)
  gids : (out.group.map GroupLine.gid).Nodup
  uids : (out.passwd.map PasswdLine.uid).Nodup

private theorem explicitGid_of_row {table : List Row} {t : Target}
    (hc : ExplicitConsistent table t) {r : Row} (hr : r ∈ table) (hid : 0 ≤ r.gid) :
    explicitGid table r.group = some r.gid.toNat := by
  have hmem : (r.group, r.gid.toNat) ∈
      (explicitGroups table).filter fun o ↦ o.1.val = r.group.val := by
    simp only [explicitGroups, List.mem_filter, List.mem_filterMap, Option.ite_none_right_eq_some,
      Option.some.injEq, decide_true, and_true]
    exact ⟨r, hr, hid, rfl⟩
  unfold explicitGid
  cases hlast : ((explicitGroups table).filter fun o ↦ o.1.val = r.group.val).getLast? with
  | none =>
    rw [List.getLast?_eq_none_iff.mp hlast] at hmem
    simp at hmem
  | some o =>
    obtain ⟨ho, hname⟩ := List.mem_filter.mp (List.mem_of_getLast? hlast)
    simp only [explicitGroups, List.mem_filterMap, Option.ite_none_right_eq_some,
      Option.some.injEq] at ho
    obtain ⟨s, hs, hsid, rfl⟩ := ho
    have hgroup : r.group = s.group := Subtype.ext (by simpa [eq_comm] using hname)
    have hgid := (hc.gids r hr s hs (by omega) (by omega)).mp hgroup
    rw [Option.map_some, hgid]

private theorem exists_row_of_explicitGid {table : List Row} {g : String} {n : Nat}
    (h : explicitGid table g = some n) : ∃ r ∈ table, r.group.val = g ∧ r.gid = n := by
  obtain ⟨o, ho, rfl⟩ := Option.map_eq_some_iff.mp h
  obtain ⟨ho, hname⟩ := List.mem_filter.mp (List.mem_of_getLast? ho)
  simp only [explicitGroups, List.mem_filterMap, Option.ite_none_right_eq_some,
    Option.some.injEq] at ho
  obtain ⟨r, hr, hid, rfl⟩ := ho
  exact ⟨r, hr, by simpa using hname, by simp only; omega⟩

private theorem claimed_cases {table : List Row} {t : Target} {g : String} {n : Nat}
    (h : n ∈ claimedGids table t g) :
    (∃ r ∈ table, r.group.val = g ∧ r.gid = n) ∨ n ∈ getGid t g := by
  unfold claimedGids at h
  cases he : explicitGid table g with
  | some m =>
    simp only [he, List.mem_singleton] at h
    exact .inl (exists_row_of_explicitGid (h ▸ he))
  | none =>
    simp only [he] at h
    exact .inr h

/-- Consistent explicit ids make no gid claimed twice. -/
theorem claimedOnce_of_consistent {table : List Row} {t : Target} (hd : Distinct t)
    (hc : ExplicitConsistent table t) : ClaimedOnce table t := by
  intro g k n hg hk
  rcases claimed_cases hg with ⟨r, hr, rfl, hid⟩ | hg
  · have hne : r.gid ≠ -1 := by omega
    rcases claimed_cases hk with ⟨s, hs, rfl, hid'⟩ | hk
    · exact congrArg Subtype.val ((hc.gids r hr s hs hne (by omega)).mpr (by omega))
    · exact (hc.gidOwner r hr hne k n hk hid.symm).symm
  · rcases claimed_cases hk with ⟨s, hs, rfl, hid'⟩ | hk
    · exact hc.gidOwner s hs (by omega) g n hg hid'.symm
    · exact (gids_nodup_iff hd.groups).mp hd.gids g k n hg hk

/-- A user with an explicit uid has it at the end. -/
theorem getUid_of_explicit {env : Env} {us : List (Name × Row)} {t out : Target}
    (h : addUsers env us t = .ok out) {u : Name} {r : Row} (ho : (u, r) ∈ us)
    (hid : r.uid ≠ -1) : getUid out u = [r.uid.toNat] := by
  obtain ⟨pre, post, s₁, s₂, -, -, hstep, hpost⟩ := foldlM_split h ho
  refine getUid_addUsers ?_ hpost
  obtain ⟨-, -, -, uid, home, passwd, huid, -, -, rfl⟩ := addOneUser_ok.mp hstep
  rw [chooseUid, if_neg hid, Except.ok.injEq] at huid
  rw [getUid_putUser_self, huid]

/-- A user of the table has a uid at the end. -/
theorem getUid_ne_nil {env : Env} {us : List (Name × Row)} {t out : Target}
    (h : addUsers env us t = .ok out) {u : Name} {r : Row} (ho : (u, r) ∈ us) :
    getUid out u ≠ [] := by
  obtain ⟨pre, post, s₁, s₂, -, -, hstep, hpost⟩ := foldlM_split h ho
  obtain ⟨-, -, -, uid, home, passwd, -, -, -, rfl⟩ := addOneUser_ok.mp hstep
  rw [getUid_addUsers getUid_putUser_self hpost]
  simp

/-- A user that is new and has no explicit uid has one from the range, if any. -/
theorem getUid_of_automatic {env : Env} {us : List (Name × Row)} {t out : Target}
    (h : addUsers env us t = .ok out) {u : Name} (hnew : getUid t u = [])
    (hauto : ∀ r, (u, r) ∈ us → r.uid = -1) :
    getUid out u = [] ∨ ∃ n, minId ≤ n ∧ n ≤ maxId ∧ getUid out u = [n] := by
  refine foldlM_preserves (fun s ↦ getUid s u = [] ∨
    ∃ n, minId ≤ n ∧ n ≤ maxId ∧ getUid s u = [n]) h (.inl hnew) ?_
  rintro ⟨v, r⟩ ho s₁ s₂ (hnil | ⟨n, hmin, hmax, hn⟩) hstep
  · obtain ⟨-, -, -, uid, home, passwd, huid, -, -, rfl⟩ := addOneUser_ok.mp hstep
    by_cases he : u = v
    · subst he
      rw [chooseUid, if_pos (hauto r ho)] at huid
      rcases generateId_ok huid with hone | ⟨-, hmin, hmax, -⟩
      · simp [hnil] at hone
      · exact .inr ⟨uid, hmin, hmax, getUid_putUser_self⟩
    · left
      rw [getUid_putUser_of_ne (fun hval ↦ he (Subtype.ext hval)), hnil]
  · exact .inr ⟨n, hmin, hmax, getUid_addOneUser hn hstep⟩

/-- With consistent explicit ids and a user in every row, ids come out as asked exactly when
no row has an id below -1; such rows are skipped, and not rejected. -/
theorem main_idsAsAsked_iff {env : Env} {table : List Row} {t out : Target}
    (h : main env table t = .ok out) (hd : Distinct t) (hc : ExplicitConsistent table t)
    (hnamed : ∀ r ∈ table, r.username ≠ none) :
    IdsAsAsked table t out ↔ ∀ r ∈ table, -1 ≤ r.uid ∧ -1 ≤ r.gid := by
  obtain ⟨mid, hgroups, husers⟩ := main_ok.mp h
  have hg := groupPhase hgroups
  have hpasswd : ∀ u, getUid mid u = getUid t u := fun u ↦ by rw [getUid, hg.passwd, getUid]
  have hnames : (mid.passwd.map PasswdLine.name).Nodup := hg.passwd ▸ hd.usernames
  have huids : (mid.passwd.map PasswdLine.uid).Nodup := hg.passwd ▸ hd.uids
  constructor
  · intro ha r hr
    obtain ⟨u, hu⟩ := Option.ne_none_iff_exists'.mp (hnamed r hr)
    constructor
    · by_contra hlow
      have hasked := ha.explicitUids r hr u hu (by omega)
      obtain ⟨n, -, hn⟩ := List.map_eq_singleton_iff.mp hasked
      rw [Int.ofNat_eq_natCast] at hn
      omega
    · by_contra hlow
      have hasked := ha.explicitGids r hr (by omega)
      obtain ⟨n, -, hn⟩ := List.map_eq_singleton_iff.mp hasked
      rw [Int.ofNat_eq_natCast] at hn
      omega
  · intro hids
    refine ⟨?_, ?_, ?_, ?_, ?_, ?_⟩
    · intro r hr hid
      have hpos : 0 ≤ r.gid := by have := (hids r hr).2; omega
      have hclaim : claimedGids table t r.group = [r.gid.toNat] := by
        simp only [claimedGids, explicitGid_of_row hc hr hpos]
      rw [getGid_addUsers husers, hg.claimed _ (by simp [hclaim]), hclaim,
        List.map_singleton, Int.ofNat_eq_natCast, Int.toNat_of_nonneg hpos]
    · rintro g ⟨r, hr, hmem⟩ hauto
      have hwritten : g ∈ writtenGroups table :=
        mem_writtenGroups.mpr ⟨r, hr, hmem.imp_left fun he ↦ ⟨he, (hids r hr).2⟩⟩
      have hnone : explicitGid table g = none := by
        rw [Option.eq_none_iff_forall_ne_some]
        intro n hn
        obtain ⟨s, hs, hname, hid⟩ := exists_row_of_explicitGid hn
        have hauto := hauto s hs (Subtype.ext hname)
        omega
      have hclaim : claimedGids table t g = getGid t g := by simp only [claimedGids, hnone]
      rw [getGid_addUsers husers, ← hclaim]
      refine ⟨hg.claimed g, fun hnil ↦ ?_⟩
      obtain ⟨n, hn⟩ := hg.single g hwritten
      obtain ⟨hmin, hmax, -⟩ := hg.fresh g n hnil (by simp [hn])
      exact ⟨n, hmin, hmax, hn⟩
    · intro r hr u hu hid
      have hpos : 0 ≤ r.uid := by have := (hids r hr).1; omega
      rw [getUid_of_explicit husers (mem_userRows.mpr ⟨hr, hu, by omega⟩) hid,
        List.map_singleton, Int.ofNat_eq_natCast, Int.toNat_of_nonneg hpos]
    · rintro u ⟨r, hr, hu⟩ hauto
      refine ⟨fun hne ↦ ?_, fun hnil ↦ ?_⟩
      · obtain ⟨n, hn⟩ := (getUid_cases hd.usernames u).resolve_left hne
        rw [hn, getUid_addUsers ((hpasswd u).trans hn) husers]
      · have hrow := mem_userRows.mpr ⟨hr, hu, (hids r hr).1⟩
        have hown : ∀ s, (u, s) ∈ userRows table → s.uid = -1 := by
          intro s hs
          obtain ⟨hs, hu', -⟩ := mem_userRows.mp hs
          exact hauto s hs hu'
        exact (getUid_of_automatic husers ((hpasswd u).trans hnil) hown).resolve_left
          (getUid_ne_nil husers hrow)
    · exact (gids_nodup hg husers hd.groups).mpr (claimedOnce_of_consistent hd hc)
    · exact (users_nodup husers hnames huids).2

/-- A row with a user and a group, both with explicit ids. -/
def daemonRow : Row :=
  ⟨some ⟨"daemon", by decide⟩, 2, ⟨"daemon", by decide⟩, 3, "-", "-", "-", [], "daemon"⟩

private theorem getGid_audioFiles {g : String} {n : Nat} (h : n ∈ getGid audioFiles g) :
    n = 29 := by
  obtain ⟨l, hl, -, hn⟩ := mem_getGid.mp h
  simp only [audioFiles, List.mem_singleton] at hl
  subst hl
  exact hn.symm

/-- The equivalence, for an automatic and an explicit row. -/
theorem main_idsAsAsked_iff_daemon : ∃ out,
    main plainEnv [serviceRow, daemonRow] audioFiles = .ok out ∧
      (IdsAsAsked [serviceRow, daemonRow] audioFiles out ↔
        ∀ r ∈ [serviceRow, daemonRow], -1 ≤ r.uid ∧ -1 ≤ r.gid) := by
  obtain ⟨out, hout⟩ := exists_of_isOk (x := main plainEnv [serviceRow, daemonRow] audioFiles)
    (by decide +kernel)
  refine ⟨out, hout, main_idsAsAsked_iff hout audioFiles_distinct ?_ (by decide)⟩
  refine ⟨by decide, ?_, ?_, ?_⟩
  · intro r hr hid g n hn he
    obtain rfl := getGid_audioFiles hn
    have hother : ∀ r ∈ [serviceRow, daemonRow], ((29 : Nat) : Int) ≠ r.gid := by decide
    exact absurd he (hother r hr)
  · intro r hr s hs u v hu hv hid hid'
    simp only [List.mem_cons, List.not_mem_nil, or_false] at hr hs
    rcases hr with rfl | rfl <;> rcases hs with rfl | rfl
    · exact absurd rfl hid
    · exact absurd rfl hid
    · exact absurd rfl hid'
    · simp [Option.some.inj (hu.symm.trans hv)]
  · intro r hr u hu hid v n hn
    simp [getUid, audioFiles] at hn

/-- A run that reports no error and leaves a user of the table out. -/
theorem main_skips_user : ∃ out, main plainEnv [skippedRow] audioFiles = .ok out ∧
    Distinct audioFiles ∧ ExplicitConsistent [skippedRow] audioFiles ∧
    (∀ r ∈ [skippedRow], r.username ≠ none) ∧ ¬ IdsAsAsked [skippedRow] audioFiles out := by
  refine ⟨_, rfl, audioFiles_distinct, ⟨?_, ?_, ?_, ?_⟩, by decide, ?_⟩
  · decide
  · intro r hr hid g n hn he
    obtain rfl := getGid_audioFiles hn
    have hother : ∀ r ∈ [skippedRow], ((29 : Nat) : Int) ≠ r.gid := by decide
    exact absurd he (hother r hr)
  · intro r hr s hs u v hu hv hid hid'
    obtain rfl := List.mem_singleton.mp hr
    obtain rfl := List.mem_singleton.mp hs
    simp [Option.some.inj (hu.symm.trans hv)]
  · intro r hr u hu hid v n hn
    simp [getUid, audioFiles] at hn
  · intro ha
    have hasked := ha.explicitUids skippedRow (by simp) ⟨"svc", by decide⟩ rfl (by decide)
    revert hasked
    decide

end MotionPie.Support.MkUsers
