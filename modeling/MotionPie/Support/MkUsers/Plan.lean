import MotionPie.Support.MkUsers.Groups

/-!
# The gids that a table gets

What the group passes of `main` are for, without running them: a claimed gid stays, and
the groups without a claim take the free gids of the range in the order in which the table
names them first. The passes refine this plan.
-/

namespace MotionPie.Support.MkUsers

open Base

/-- The names that can have a claim. -/
def claimants (table : List Row) (t : Target) : List String :=
  t.group.map GroupLine.name ++ (explicitGroups table).map fun o ↦ o.1.val

/-- The gids of the range that nobody claims, lowest first. -/
def freeGids (table : List Row) (t : Target) : List Nat :=
  (List.range' minId (maxId + 1 - minId)).filter fun n ↦
    (claimants table t).all fun g ↦ n ∉ claimedGids table t g

/-- Append a group that has neither a claim nor a place yet. -/
def addNew (table : List Row) (t : Target) (news : List Name) (g : Name) : List Name :=
  if claimedGids table t g ≠ [] ∨ g ∈ news then news else news ++ [g]

/-- The groups of the table without a claim, in the order in which it names them first. -/
def newGroups (table : List Row) (t : Target) : List Name :=
  (automaticGroups table).foldl (addNew table t) []

/-- The gids that the table leads to: claims stay, new groups take the free gids in order. -/
def plannedGids (table : List Row) (t : Target) (g : String) : List Nat :=
  match claimedGids table t g with
  | [] => (((newGroups table t).zip (freeGids table t)).filter fun o ↦ o.1.val = g).map Prod.snd
  | ns => ns

/-- A gid is free when it is in the range and nobody claims it. -/
theorem mem_freeGids {table : List Row} {t : Target} {n : Nat} :
    n ∈ freeGids table t ↔
      minId ≤ n ∧ n ≤ maxId ∧ ∀ g, n ∉ claimedGids table t g := by
  have hend : minId + (maxId + 1 - minId) = maxId + 1 := by decide
  have hclaim : (∀ g ∈ claimants table t, n ∉ claimedGids table t g) ↔
      ∀ g, n ∉ claimedGids table t g := by
    refine ⟨fun h g hg ↦ h g ?_ hg, fun h g _ ↦ h g⟩
    unfold claimedGids at hg
    cases he : explicitGid table g with
    | some m =>
      obtain ⟨o, ho, -⟩ := Option.map_eq_some_iff.mp he
      obtain ⟨hmem, hname⟩ := List.mem_filter.mp (List.mem_of_getLast? ho)
      refine List.mem_append_right _ (List.mem_map.mpr ⟨o, hmem, by simpa using hname⟩)
    | none =>
      simp only [he] at hg
      obtain ⟨l, hl, hname, -⟩ := mem_getGid.mp hg
      exact List.mem_append_left _ (List.mem_map.mpr ⟨l, hl, hname⟩)
  rw [freeGids, List.mem_filter, List.mem_range'_1, hend, ← hclaim]
  simp only [List.all_eq_true, decide_eq_true_eq]
  constructor
  · rintro ⟨⟨hmin, hmax⟩, h⟩
    exact ⟨hmin, by omega, h⟩
  · rintro ⟨hmin, hmax, h⟩
    exact ⟨⟨hmin, by omega⟩, h⟩

private theorem freeGids_sorted (table : List Row) (t : Target) :
    (freeGids table t).Pairwise (· < ·) :=
  List.Pairwise.filter _ List.pairwise_lt_range'

/-- The gids when the groups `news` have taken the gids `taken`. -/
def assignedGids (table : List Row) (t : Target) (news : List Name) (taken : List Nat)
    (g : String) : List Nat :=
  match claimedGids table t g with
  | [] => ((news.zip taken).filter fun o ↦ o.1.val = g).map Prod.snd
  | ns => ns

/-- A new group has a gid exactly when it has been named. -/
private theorem assignedGids_eq_nil {table : List Row} {t : Target} {news : List Name}
    {taken : List Nat} (hlen : taken.length = news.length) {g : Name}
    (hc : claimedGids table t g = []) : assignedGids table t news taken g = [] ↔ g ∉ news := by
  have hfst : (news.zip taken).map Prod.fst = news := List.map_fst_zip (by omega)
  simp only [assignedGids, hc, List.map_eq_nil_iff, List.filter_eq_nil_iff, decide_eq_true_eq]
  constructor
  · intro h hg
    rw [← hfst] at hg
    obtain ⟨o, ho, rfl⟩ := List.mem_map.mp hg
    exact h o ho rfl
  · intro h o ho he
    apply h
    rw [← hfst]
    exact List.mem_map.mpr ⟨o, ho, Subtype.ext he⟩

/-- The gids that new groups have are those that were taken. -/
private theorem mem_assignedGids {table : List Row} {t : Target} {news : List Name}
    {taken : List Nat} {g : String} {n : Nat} (hc : claimedGids table t g = [])
    (h : n ∈ assignedGids table t news taken g) : n ∈ taken := by
  simp only [assignedGids, hc, List.mem_map, List.mem_filter] at h
  obtain ⟨o, ⟨ho, -⟩, rfl⟩ := h
  exact (List.of_mem_zip ho).2

/-- Where the automatic passes stand: the groups `news` have taken the first free gids. -/
structure PlanState (table : List Row) (t : Target) (news : List Name) (taken rest : List Nat)
    (s : Target) : Prop where
  free : freeGids table t = taken ++ rest
  length : taken.length = news.length
  unclaimed : ∀ g ∈ news, claimedGids table t g = []
  gids : ∀ g, getGid s g = assignedGids table t news taken g

section Step

variable {table : List Row} {t s : Target} {news : List Name} {taken rest : List Nat}

/-- A gid that was taken is somebody's. -/
private theorem PlanState.exists_of_mem_taken (h : PlanState table t news taken rest s) {n : Nat}
    (hn : n ∈ taken) : ∃ g, n ∈ getGid s g := by
  have hsnd : (news.zip taken).map Prod.snd = taken := List.map_snd_zip (by have := h.length; omega)
  rw [← hsnd] at hn
  obtain ⟨o, ho, rfl⟩ := List.mem_map.mp hn
  refine ⟨o.1, ?_⟩
  rw [h.gids]
  simp only [assignedGids, h.unclaimed o.1 (List.of_mem_zip ho).1, List.mem_map, List.mem_filter,
    decide_eq_true_eq]
  exact ⟨o, ⟨ho, rfl⟩, rfl⟩

/-- The lowest gid that no group has is the first one left. -/
private theorem PlanState.rest_eq (h : PlanState table t news taken rest s) {n : Nat}
    (hmin : minId ≤ n) (hmax : n ≤ maxId) (hfree : ∀ g, n ∉ getGid s g)
    (hlow : ∀ m, minId ≤ m → m < n → ∃ g, m ∈ getGid s g) : ∃ rest', rest = n :: rest' := by
  have hsorted := freeGids_sorted table t
  have hmem : n ∈ freeGids table t := by
    refine mem_freeGids.mpr ⟨hmin, hmax, fun g hg ↦ hfree g ?_⟩
    rw [h.gids, assignedGids]
    split
    · next hc => simp [hc] at hg
    · exact hg
  rw [h.free] at hsorted hmem
  rcases List.mem_append.mp hmem with htaken | hrest
  · obtain ⟨g, hg⟩ := h.exists_of_mem_taken htaken
    exact absurd hg (hfree g)
  cases rest with
  | nil => simp at hrest
  | cons m rest' =>
    rcases List.mem_cons.mp hrest with rfl | hlate
    · exact ⟨rest', rfl⟩
    · -- a gid before `n` that is left would have been found first
      have hlt : m < n := (List.pairwise_cons.mp (List.pairwise_append.mp hsorted).2.1).1 n hlate
      have hm : m ∈ freeGids table t := by simp [h.free]
      obtain ⟨hmmin, -, hunclaimed⟩ := mem_freeGids.mp hm
      obtain ⟨g, hg⟩ := hlow m hmmin hlt
      rw [h.gids] at hg
      by_cases hc : claimedGids table t g = []
      · have := (List.pairwise_append.mp hsorted).2.2 m (mem_assignedGids hc hg) m (by simp)
        omega
      · refine absurd ?_ (hunclaimed g)
        rw [assignedGids] at hg
        split at hg
        · contradiction
        · exact hg

/-- One call of `add_one_group` follows the plan. -/
private theorem PlanState.step (h : PlanState table t news taken rest s) {g : Name} {s' : Target}
    (hs : addOneGroup g (-1) s = .ok s') :
    ∃ taken' rest', PlanState table t (addNew table t news g) taken' rest' s' := by
  obtain ⟨n, rfl, hone | ⟨hnone, hmin, hmax, hfree, hlow⟩⟩ := addOneGroup_automatic hs
  · have hold : addNew table t news g = news := by
      apply if_pos
      by_contra hnot
      rw [not_or, not_not] at hnot
      rw [h.gids, (assignedGids_eq_nil h.length hnot.1).mpr hnot.2] at hone
      simp at hone
    rw [hold]
    exact ⟨taken, rest, h.free, h.length, h.unclaimed, fun k ↦ by
      rw [getGid_putGroup_same hone, h.gids]⟩
  · obtain ⟨rest', rfl⟩ := h.rest_eq hmin hmax hfree hlow
    have hclaim : claimedGids table t g = [] := by
      by_contra hne
      rw [h.gids, assignedGids] at hnone
      split at hnone
      · contradiction
      · exact hne hnone
    have hnew : g ∉ news := by
      rw [← assignedGids_eq_nil h.length hclaim, ← h.gids, hnone]
    have hadd : addNew table t news g = news ++ [g] := if_neg (by simp [hclaim, hnew])
    rw [hadd]
    refine ⟨taken ++ [n], rest', by simp [h.free], by simp [h.length], ?_, fun k ↦ ?_⟩
    · intro k hk
      rcases List.mem_append.mp hk with hk | hk
      · exact h.unclaimed k hk
      · rw [List.mem_singleton.mp hk, hclaim]
    · have hzip : (news ++ [g]).zip (taken ++ [n]) = news.zip taken ++ [(g, n)] :=
        List.zip_append h.length.symm
      by_cases hk : k = g
      · subst hk
        have hnil := (assignedGids_eq_nil h.length hclaim).mpr hnew
        simp only [assignedGids, hclaim, List.map_eq_nil_iff] at hnil
        simp [assignedGids, hclaim, hzip, hnil]
      · rw [getGid_putGroup_of_ne hk, h.gids]
        simp [assignedGids, hzip, Ne.symm hk]

end Step

/-- The group passes give every group the gids that the table leads to. -/
theorem getGid_eq_plannedGids {table : List Row} {t mid : Target}
    (h : addGroups (automaticGroups table) (afterExplicit table t) = .ok mid) (g : String) :
    getGid mid g = plannedGids table t g := by
  have hinit : PlanState table t [] [] (freeGids table t) (afterExplicit table t) := by
    refine ⟨rfl, rfl, by simp, fun g ↦ ?_⟩
    rw [getGid_afterExplicit, assignedGids]
    split
    · next hc => simp [hc]
    · rfl
  obtain ⟨taken, rest, hplan⟩ := foldlM_inv (fun pre s ↦ ∃ taken rest,
      PlanState table t (pre.foldl (addNew table t) []) taken rest s) h ⟨_, _, hinit⟩ (by
    rintro pre g post s₁ s₂ - ⟨taken, rest, hs⟩ hstep
    rw [List.foldl_append]
    exact hs.step hstep)
  have hzip : (newGroups table t).zip (freeGids table t) = (newGroups table t).zip taken := by
    have happ : ((newGroups table t) ++ []).zip (taken ++ rest) =
        (newGroups table t).zip taken ++ [].zip rest := List.zip_append hplan.length.symm
    rw [List.append_nil, List.zip_nil_left, List.append_nil] at happ
    rw [hplan.free]
    exact happ
  rw [hplan.gids, assignedGids, plannedGids, hzip]
  rfl

end MotionPie.Support.MkUsers
