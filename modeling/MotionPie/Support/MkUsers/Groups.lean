import MotionPie.Base.Loop
import MotionPie.Support.MkUsers.Script

/-!
# The groups of a run

The first three passes of `main`, `support/scripts/mkusers:370-399`, write the groups of
the table. The explicit gids come first and cannot fail; then each automatic or additional
group keeps the gid it has, or takes one from the range that no group has. No user pass
changes the name or the gid of a group.
-/

namespace MotionPie.Support.MkUsers

open Base

/-! ### One group -/

/-- The effect of `add_one_group` once the gid is known. -/
def putGroup (group : Name) (gid : Nat) (t : Target) : Target :=
  { t with
    group := upsert GroupLine.name t.group (groupLine group gid)
    gshadow := t.gshadow.map fun ls ↦ upsert GshadowLine.name ls (gshadowLine group) }

/-- A group has the gids of its lines. -/
theorem mem_getGid {t : Target} {g : String} {n : Nat} :
    n ∈ getGid t g ↔ ∃ l ∈ t.group, l.name = g ∧ l.gid = n := by
  simp [getGid, and_assoc]

/-- The groups of a gid are those that have it. -/
theorem mem_getGroup {t : Target} {g : String} {n : Nat} :
    g ∈ getGroup t n ↔ n ∈ getGid t g := by
  rw [mem_getGid]
  simp only [getGroup, List.mem_map, List.mem_filter, decide_eq_true_eq, Int.ofNat_inj]
  constructor
  · rintro ⟨l, ⟨hl, hn⟩, hg⟩
    exact ⟨l, hl, hg, hn⟩
  · rintro ⟨l, hl, hg, hn⟩
    exact ⟨l, ⟨hl, hn⟩, hg⟩

/-- A written group has the gid it was given. -/
@[simp] theorem getGid_putGroup_self (g : Name) (n : Nat) (t : Target) :
    getGid (putGroup g n t) g = [n] := by
  have hlines : (putGroup g n t).group.filter (fun l ↦ l.name = (g : String)) =
      [groupLine g n] :=
    filter_upsert_self t.group (groupLine g n)
  rw [getGid, hlines]
  rfl

/-- Writing a group leaves the gids of the others alone. -/
theorem getGid_putGroup_of_ne {g : Name} {h : String} (hne : h ≠ g) (n : Nat) (t : Target) :
    getGid (putGroup g n t) h = getGid t h := by
  simp only [getGid, putGroup]
  rw [filter_upsert_of_ne]
  exact hne

/-- Writing a group with the gid it has changes no gid. -/
theorem getGid_putGroup_same {g : Name} {n : Nat} {t : Target} (hg : getGid t g = [n])
    (h : String) : getGid (putGroup g n t) h = getGid t h := by
  by_cases he : h = g
  · rw [he, getGid_putGroup_self, hg]
  · exact getGid_putGroup_of_ne he n t

/-- A generated id is the existing one, or the lowest of the range that is not in use. -/
theorem generateId_ok {existing : List Nat} {inUse : Nat → Bool} {e : Failure} {n : Nat}
    (h : generateId existing inUse e = .ok n) :
    existing = [n] ∨ (existing = [] ∧ minId ≤ n ∧ n ≤ maxId ∧ inUse n = false ∧
      ∀ m, minId ≤ m → m < n → inUse m = true) := by
  match existing, h with
  | [], h =>
    simp only [generateId] at h
    split at h
    · next id hfind =>
      obtain rfl : id = n := by simpa using h
      rw [List.find?_range'_eq_some, List.mem_range'_1] at hfind
      obtain ⟨hfree, hrange, hlow⟩ := hfind
      have hend : minId + (maxId + 1 - minId) = maxId + 1 := by decide
      refine .inr ⟨rfl, hrange.1, by omega, by simpa using hfree, fun m hm hlt ↦ ?_⟩
      simpa using hlow m hm hlt
    · cases h
  | [id], h =>
    obtain rfl : id = n := by simpa [generateId] using h
    exact .inl rfl
  | _ :: _ :: _, h => cases h

/-- An explicit gid is written as it is. -/
theorem addOneGroup_explicit (g : Name) {gid : Int} (h : 0 ≤ gid) (t : Target) :
    addOneGroup g gid t = .ok (putGroup g gid.toNat t) := by
  have hne : gid ≠ -1 := by omega
  simp only [addOneGroup, if_neg hne, pure_bind]
  rfl

/-- A group without an explicit gid keeps its gid, or takes a free one from the range. -/
theorem addOneGroup_automatic {g : Name} {t t' : Target} (h : addOneGroup g (-1) t = .ok t') :
    ∃ n, t' = putGroup g n t ∧ (getGid t g = [n] ∨
      (getGid t g = [] ∧ minId ≤ n ∧ n ≤ maxId ∧ (∀ h, n ∉ getGid t h) ∧
        ∀ m, minId ≤ m → m < n → ∃ h, m ∈ getGid t h)) := by
  simp only [addOneGroup, if_true, bind_ok] at h
  obtain ⟨n, hn, ht⟩ := h
  obtain rfl : putGroup g n t = t' := Except.ok.inj ht
  have hgen : generateGid t g = .ok n := by
    cases hg : generateGid t g with
    | error e => simp [hg, Except.mapError] at hn
    | ok m => simpa [hg, Except.mapError] using hn
  refine ⟨n, rfl, ?_⟩
  rcases generateId_ok hgen with hone | ⟨hnone, hmin, hmax, hfree, hlow⟩
  · exact .inl hone
  · refine .inr ⟨hnone, hmin, hmax, fun h hmem ↦ ?_, fun m hm hlt ↦ ?_⟩
    · have hempty : getGroup t n = [] := by simpa using hfree
      rw [← mem_getGroup, hempty] at hmem
      simp at hmem
    · have hused : getGroup t m ≠ [] := by simpa using hlow m hm hlt
      obtain ⟨h, hh⟩ := List.exists_mem_of_ne_nil _ hused
      exact ⟨h, mem_getGroup.mp hh⟩

/-- A group that has one gid can be written again. -/
theorem addOneGroup_of_getGid {g : Name} {n : Nat} {t : Target} (h : getGid t g = [n]) :
    addOneGroup g (-1) t = .ok (putGroup g n t) := by
  simp only [addOneGroup, if_true, generateGid, generateId, h]
  rfl

/-! ### Several groups -/

/-- Write groups with known gids. -/
def putGroups (ls : List (Name × Nat)) (t : Target) : Target :=
  ls.foldl (fun t o ↦ putGroup o.1 o.2 t) t

/-- Writing groups writes their lines. -/
theorem putGroups_group (ls : List (Name × Nat)) (t : Target) :
    (putGroups ls t).group =
      upsertAll GroupLine.name t.group (ls.map fun o ↦ groupLine o.1 o.2) := by
  induction ls generalizing t with
  | nil => rfl
  | cons o ls ih => exact ih (putGroup o.1 o.2 t)

/-- Writing groups writes their gshadow lines, if there is a gshadow file. -/
theorem putGroups_gshadow (ls : List (Name × Nat)) (t : Target) :
    (putGroups ls t).gshadow = t.gshadow.map fun gs ↦
      upsertAll GshadowLine.name gs (ls.map fun o ↦ gshadowLine o.1) := by
  induction ls generalizing t with
  | nil => simp [putGroups]
  | cons o ls ih =>
    have hcons : putGroups (o :: ls) t = putGroups ls (putGroup o.1 o.2 t) := rfl
    rw [hcons, ih]
    simp [putGroup, Function.comp_def]

/-- Writing groups touches neither users nor the fakeroot script. -/
theorem putGroups_users (ls : List (Name × Nat)) (t : Target) :
    (putGroups ls t).passwd = t.passwd ∧ (putGroups ls t).shadow = t.shadow ∧
      (putGroups ls t).fakeroot = t.fakeroot := by
  induction ls generalizing t with
  | nil => exact ⟨rfl, rfl, rfl⟩
  | cons o ls ih => exact ih (putGroup o.1 o.2 t)

/-- The gid of a group after several writes is the last one written, if any. -/
theorem getGid_putGroups (ls : List (Name × Nat)) (t : Target) (g : String) :
    getGid (putGroups ls t) g =
      match (ls.filter fun o ↦ o.1.val = g).getLast? with
      | some o => [o.2]
      | none => getGid t g := by
  induction ls using List.reverseRecOn with
  | nil => rfl
  | append_singleton ls o ih =>
    have happ : putGroups (ls ++ [o]) t = putGroup o.1 o.2 (putGroups ls t) := by
      simp [putGroups]
    by_cases hg : o.1.val = g
    · subst hg
      simp [happ]
    · rw [happ, getGid_putGroup_of_ne (Ne.symm hg), ih]
      simp [List.filter_append, hg]

/-- A group that was written has one gid. -/
theorem getGid_putGroups_single {ls : List (Name × Nat)} {g : Name} (t : Target)
    (hg : g ∈ ls.map Prod.fst) : ∃ n, getGid (putGroups ls t) g = [n] := by
  obtain ⟨o, ho, rfl⟩ := List.mem_map.mp hg
  rw [getGid_putGroups]
  cases hlast : (ls.filter fun p ↦ p.1.val = o.1.val).getLast? with
  | some p => exact ⟨p.2, rfl⟩
  | none =>
    have hempty := List.getLast?_eq_none_iff.mp hlast
    have hmem : o ∈ ls.filter fun p ↦ p.1.val = o.1.val := by simp [ho]
    simp [hempty] at hmem

/-- The groups may be written with their final gids at once. -/
theorem putGroups_settle (ls : List (Name × Nat)) (t : Target) :
    (putGroups ls t).group = upsertAll GroupLine.name t.group
      ((ls.map Prod.fst).map fun g ↦ groupLine g ((getGid (putGroups ls t) g).headD 0)) := by
  let F : GroupLine → GroupLine := fun l ↦
    { l with gid := (getGid (putGroups ls t) l.name).headD 0 }
  have hkey : ∀ l, (F l).name = l.name := fun l ↦ rfl
  have hF : (ls.map fun o ↦ groupLine o.1 o.2).map F =
      (ls.map Prod.fst).map fun g ↦ groupLine g ((getGid (putGroups ls t) g).headD 0) := by
    rw [List.map_map, List.map_map]
    rfl
  rw [← hF, upsertAll_settle hkey, putGroups_group]
  intro l hl hwritten
  rw [← putGroups_group] at hl
  obtain ⟨o, ho, hname⟩ : ∃ o ∈ ls, o.1.val = l.name := by
    simpa [groupLine] using hwritten
  obtain ⟨n, hn⟩ := getGid_putGroups_single t (List.mem_map_of_mem ho)
  have hgid : l.gid ∈ getGid (putGroups ls t) l.name := mem_getGid.mpr ⟨l, hl, rfl, rfl⟩
  rw [hname] at hn
  rw [hn, List.mem_singleton] at hgid
  simp only [F, hn, List.headD_cons, ← hgid]

/-! ### The group passes -/

/-- The calls of the first pass. -/
def explicitGroups (table : List Row) : List (Name × Nat) :=
  table.filterMap fun r ↦ if 0 ≤ r.gid then some (r.group, r.gid.toNat) else none

/-- The calls of the second and third pass. -/
def automaticGroups (table : List Row) : List Name :=
  (table.filter fun r ↦ r.gid = -1).map Row.group ++ table.flatMap Row.groups

/-- The rows that the user passes work on, in order. -/
def userRows (table : List Row) : List (Name × Row) :=
  table.filterMap (fun r ↦ if 0 ≤ r.uid then r.username.map (·, r) else none) ++
    table.filterMap fun r ↦ if r.uid = -1 then r.username.map (·, r) else none

/-- The files after the first pass. -/
def afterExplicit (table : List Row) (t : Target) : Target := putGroups (explicitGroups table) t

private theorem addExplicitGroups_eq (table : List Row) (t : Target) :
    addExplicitGroups table t = .ok (afterExplicit table t) := by
  unfold addExplicitGroups afterExplicit
  induction table generalizing t with
  | nil => rfl
  | cons r table ih =>
    by_cases hr : 0 ≤ r.gid
    · rw [List.foldlM_cons, if_pos hr, addOneGroup_explicit r.group hr]
      have h := ih (putGroup r.group r.gid.toNat t)
      simp only [explicitGroups, List.filterMap_cons, hr, if_true] at h ⊢
      exact h
    · rw [List.foldlM_cons, if_neg hr]
      have h := ih t
      simp only [explicitGroups, List.filterMap_cons, hr, if_false] at h ⊢
      exact h

/-- The second and third pass. -/
def addGroups (gs : List Name) (t : Target) : Except (Failure × Target) Target :=
  gs.foldlM (fun t g ↦ addOneGroup g (-1) t) t

/-- The last two passes. -/
def addUsers (env : Env) (us : List (Name × Row)) (t : Target) :
    Except (Failure × Target) Target :=
  us.foldlM (fun t o ↦ addOneUser env o.1 o.2 t) t

private theorem addAutomaticGroups_eq (table : List Row) (t : Target) :
    addAutomaticGroups table t =
      addGroups ((table.filter fun r ↦ r.gid = -1).map Row.group) t := by
  rw [addGroups, List.foldlM_map, List.foldlM_filter, addAutomaticGroups]
  refine congrArg (fun f ↦ table.foldlM f t) (funext fun s ↦ funext fun r ↦ ?_)
  by_cases hr : r.gid = -1 <;> simp [hr]

private theorem addAdditionalGroups_eq (table : List Row) (t : Target) :
    addAdditionalGroups table t = addGroups (table.flatMap Row.groups) t :=
  (foldlM_flatMap _ _ _ _).symm

private theorem addExplicitUsers_eq (env : Env) (table : List Row) (t : Target) :
    addExplicitUsers env table t = addUsers env
      (table.filterMap fun r ↦ if 0 ≤ r.uid then r.username.map (·, r) else none) t := by
  rw [addUsers, List.foldlM_filterMap, addExplicitUsers]
  refine congrArg (fun f ↦ table.foldlM f t) (funext fun s ↦ funext fun r ↦ ?_)
  cases hu : r.username with
  | none => simp
  | some username => by_cases hr : 0 ≤ r.uid <;> simp [hr]

private theorem addAutomaticUsers_eq (env : Env) (table : List Row) (t : Target) :
    addAutomaticUsers env table t = addUsers env
      (table.filterMap fun r ↦ if r.uid = -1 then r.username.map (·, r) else none) t := by
  rw [addUsers, List.foldlM_filterMap, addAutomaticUsers]
  refine congrArg (fun f ↦ table.foldlM f t) (funext fun s ↦ funext fun r ↦ ?_)
  cases hu : r.username with
  | none => simp
  | some username => by_cases hr : r.uid = -1 <;> simp [hr]

/-- The five passes are two loops, one over groups and one over users. -/
theorem main_ok {env : Env} {table : List Row} {t out : Target} :
    main env table t = .ok out ↔ ∃ mid,
      addGroups (automaticGroups table) (afterExplicit table t) = .ok mid ∧
      addUsers env (userRows table) mid = .ok out := by
  simp only [main, bind_ok, addExplicitGroups_eq, addAutomaticGroups_eq, addAdditionalGroups_eq,
    addExplicitUsers_eq, addAutomaticUsers_eq]
  constructor
  · rintro ⟨t₁, ht₁, t₂, h₂, t₃, h₃, t₄, h₄, h₅⟩
    obtain rfl := Except.ok.inj ht₁
    exact ⟨t₃, foldlM_append_ok.mpr ⟨t₂, h₂, h₃⟩, foldlM_append_ok.mpr ⟨t₄, h₄, h₅⟩⟩
  · rintro ⟨t₃, hg, hu⟩
    obtain ⟨t₂, h₂, h₃⟩ := foldlM_append_ok.mp hg
    obtain ⟨t₄, h₄, h₅⟩ := foldlM_append_ok.mp hu
    exact ⟨_, rfl, t₂, h₂, t₃, h₃, t₄, h₄, h₅⟩

/-! ### The gids that the automatic passes give -/

/-- How the gids of `t'` come from those of `t` when groups are written automatically: an
existing gid stays, and a new one is from the range and nobody else's. -/
structure GidsAssigned (t t' : Target) : Prop where
  kept : ∀ g, getGid t g ≠ [] → getGid t' g = getGid t g
  fresh : ∀ g n, getGid t g = [] → n ∈ getGid t' g →
    minId ≤ n ∧ n ≤ maxId ∧ ∀ h, n ∈ getGid t' h → h = g

private theorem GidsAssigned.step {g : Name} {t s s' : Target} (ha : GidsAssigned t s)
    (h : addOneGroup g (-1) s = .ok s') : GidsAssigned t s' := by
  obtain ⟨n, rfl, hone | ⟨hnone, hmin, hmax, hfree, -⟩⟩ := addOneGroup_automatic h
  · -- the group already has a gid, and no gid changes
    have hsame := getGid_putGroup_same hone
    refine ⟨fun h hne ↦ by rw [hsame, ha.kept h hne], fun h m he hm ↦ ?_⟩
    simp only [hsame] at hm ⊢
    exact ha.fresh h m he hm
  · have hother : ∀ h : String, h ≠ g → getGid (putGroup g n s) h = getGid s h :=
      fun h hne ↦ getGid_putGroup_of_ne hne n s
    have hnew : ∀ h, n ∈ getGid (putGroup g n s) h → h = g := by
      intro h hn
      by_contra hne
      rw [hother h hne] at hn
      exact hfree h hn
    refine ⟨fun h hne ↦ ?_, fun h m he hm ↦ ?_⟩
    · have hg : h ≠ g := by
        rintro rfl
        exact hne (by rw [← ha.kept _ hne, hnone])
      rw [hother h hg, ha.kept h hne]
    · by_cases hg : h = g
      · rw [hg, getGid_putGroup_self, List.mem_singleton] at hm
        subst hm
        exact ⟨hmin, hmax, fun k hk ↦ by rw [hg, hnew k hk]⟩
      · rw [hother h hg] at hm
        obtain ⟨hlow, hhigh, huniq⟩ := ha.fresh h m he hm
        refine ⟨hlow, hhigh, fun k hk ↦ ?_⟩
        by_cases hkg : k = g
        · rw [hkg, getGid_putGroup_self, List.mem_singleton] at hk
          exact absurd (hk ▸ hm) (hfree h)
        · rw [hother k hkg] at hk
          exact huniq k hk

/-- The automatic passes write their groups, each with the gid it ends up with. -/
theorem addGroups_ok {gs : List Name} {t t' : Target} (h : addGroups gs t = .ok t') :
    GidsAssigned t t' ∧ ∃ ls : List (Name × Nat), ls.map Prod.fst = gs ∧ t' = putGroups ls t := by
  refine foldlM_inv (fun pre s ↦ GidsAssigned t s ∧
    ∃ ls : List (Name × Nat), ls.map Prod.fst = pre ∧ s = putGroups ls t) h ?_ ?_
  · refine ⟨⟨fun _ _ ↦ rfl, fun g n he hn ↦ ?_⟩, [], rfl, rfl⟩
    simp [he] at hn
  · rintro pre g post s₁ s₂ - ⟨ha, ls, rfl, rfl⟩ hstep
    refine ⟨ha.step hstep, ?_⟩
    obtain ⟨n, rfl, -⟩ := addOneGroup_automatic hstep
    exact ⟨ls ++ [(g, n)], by simp, by simp [putGroups]⟩

/-- Groups that all have one gid can be written again. -/
theorem addGroups_of_getGid {gs : List Name} {t : Target}
    (h : ∀ g ∈ gs, ∃ n, getGid t g = [n]) : ∃ t', addGroups gs t = .ok t' := by
  induction gs generalizing t with
  | nil => exact ⟨t, rfl⟩
  | cons g gs ih =>
    obtain ⟨n, hn⟩ := h g (by simp)
    have hrest : ∀ g' ∈ gs, ∃ m, getGid (putGroup g n t) g' = [m] := by
      intro g' hg'
      rw [getGid_putGroup_same hn]
      exact h g' (by simp [hg'])
    obtain ⟨t', ht'⟩ := ih hrest
    exact ⟨t', foldlM_cons_ok.mpr ⟨_, addOneGroup_of_getGid hn, ht'⟩⟩

/-! ### The group passes as a whole -/

/-- The last explicit gid that the table gives to a group. -/
def explicitGid (table : List Row) (g : String) : Option Nat :=
  ((explicitGroups table).filter fun o ↦ o.1.val = g).getLast?.map Prod.snd

/-- The groups that the table names, in the order in which they are written. -/
def writtenGroups (table : List Row) : List Name :=
  (explicitGroups table).map Prod.fst ++ automaticGroups table

/-- The gids that a group has a claim to: the last explicit gid that the table gives it, or
else those it has in the files. -/
def claimedGids (table : List Row) (t : Target) (g : String) : List Nat :=
  match explicitGid table g with
  | some n => [n]
  | none => getGid t g

/-- The first pass meets the claims. -/
theorem getGid_afterExplicit (table : List Row) (t : Target) (g : String) :
    getGid (afterExplicit table t) g = claimedGids table t g := by
  rw [afterExplicit, getGid_putGroups, claimedGids, explicitGid]
  cases ((explicitGroups table).filter fun o ↦ o.1.val = g).getLast? <;> rfl

/-- What the three group passes make of the files `t`. -/
structure GroupPhase (table : List Row) (t mid : Target) : Prop where
  passwd : mid.passwd = t.passwd
  shadow : mid.shadow = t.shadow
  fakeroot : mid.fakeroot = t.fakeroot
  group : mid.group = upsertAll GroupLine.name t.group
    ((writtenGroups table).map fun g ↦ groupLine g ((getGid mid g).headD 0))
  gshadow : mid.gshadow = t.gshadow.map fun gs ↦
    upsertAll GshadowLine.name gs ((writtenGroups table).map gshadowLine)
  single : ∀ g ∈ writtenGroups table, ∃ n, getGid mid g = [n]
  claimed : ∀ g, claimedGids table t g ≠ [] → getGid mid g = claimedGids table t g
  fresh : ∀ g n, claimedGids table t g = [] → n ∈ getGid mid g →
    minId ≤ n ∧ n ≤ maxId ∧ ∀ h, n ∈ getGid mid h → h = g

/-- The group passes, when they succeed. -/
theorem groupPhase {table : List Row} {t mid : Target}
    (h : addGroups (automaticGroups table) (afterExplicit table t) = .ok mid) :
    GroupPhase table t mid := by
  obtain ⟨ha, ls, hls, hmid⟩ := addGroups_ok h
  have hput : mid = putGroups (explicitGroups table ++ ls) t := by
    rw [hmid, afterExplicit, putGroups, putGroups, putGroups, List.foldl_append]
  have hnames : (explicitGroups table ++ ls).map Prod.fst = writtenGroups table := by
    rw [List.map_append, hls, writtenGroups]
  have hafter := getGid_afterExplicit table t
  obtain ⟨hpasswd, hshadow, hfakeroot⟩ := putGroups_users (explicitGroups table ++ ls) t
  have hgroup := putGroups_settle (explicitGroups table ++ ls) t
  have hgshadow := putGroups_gshadow (explicitGroups table ++ ls) t
  rw [← hput] at hpasswd hshadow hfakeroot hgroup hgshadow
  refine ⟨hpasswd, hshadow, hfakeroot, hnames ▸ hgroup, ?_, ?_, ?_, ?_⟩
  · rw [hgshadow, ← hnames, List.map_map]
    rfl
  · intro g hg
    rw [hput]
    exact getGid_putGroups_single t (hnames ▸ hg)
  · intro g hg
    rw [← hafter] at hg ⊢
    exact ha.kept g hg
  · intro g n hg
    rw [← hafter] at hg
    exact ha.fresh g n hg

section Lines

variable {table : List Row} {t mid : Target}

/-- The lines of a group that the table does not name. -/
theorem GroupPhase.filter_of_notMem (h : GroupPhase table t mid) {g : String}
    (hg : ∀ k ∈ writtenGroups table, k.val ≠ g) :
    (mid.group.filter fun l ↦ l.name = g) = t.group.filter fun l ↦ l.name = g := by
  rw [h.group, filter_upsertAll_of_notMem]
  intro hmem
  obtain ⟨l, hl, hn⟩ := List.mem_map.mp hmem
  obtain ⟨k, hk, rfl⟩ := List.mem_map.mp hl
  exact hg k hk hn

/-- The lines of a group that the table names. -/
theorem GroupPhase.filter_of_mem (h : GroupPhase table t mid) {g : Name} {n : Nat}
    (hg : g ∈ writtenGroups table) (hn : getGid mid g = [n]) :
    (mid.group.filter fun l ↦ l.name = g.val) = [groupLine g n] := by
  obtain ⟨l, hl, -⟩ := List.map_eq_singleton_iff.mp hn
  have hmem : l ∈ mid.group.filter fun l ↦ l.name = g.val := by simp [hl]
  obtain ⟨hmid, hname⟩ := List.mem_filter.mp hmem
  rw [decide_eq_true_eq] at hname
  rw [h.group] at hmid
  rcases mem_upsertAll hmid with ⟨-, hnot⟩ | hbatch
  · have hline := List.mem_map_of_mem (f := fun k : Name ↦
      groupLine k ((getGid mid k).headD 0)) hg
    exact absurd (List.mem_map.mpr ⟨_, hline, hname.symm⟩) hnot
  · obtain ⟨k, -, rfl⟩ := List.mem_map.mp hbatch
    obtain rfl : k = g := Subtype.ext hname
    rw [hl, hn]
    rfl

end Lines

end MotionPie.Support.MkUsers
