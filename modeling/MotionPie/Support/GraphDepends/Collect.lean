import Mathlib.Data.Finset.Card
import Mathlib.Data.List.Dedup
import MotionPie.Graph.Walk
import MotionPie.Support.GraphDepends

/-!
# Collecting the dependencies

`get_all_depends` of `support/scripts/graph-depends`. It asks `make` for the dependencies of all new
packages of a batch at once, and goes on with the set of those dependencies. A global list keeps the
packages that have been asked for.
-/

namespace MotionPie.Support.GraphDepends

open MotionPie.Graph Relation

/-! ### get_all_depends -/

/-- What the function calls: `get_depends`, which ends the script when `make` fails, and the order
in which Python goes through a set that was filled with the elements of a list. -/
structure Asking where
  getDepends : List String → Option Deps
  setOrder : List String → List String
  setOrder_perm : ∀ l, (setOrder l).Perm l.dedup

/-- The global `allpkgs`, and the batches that `get_depends` was called with. -/
structure Collected where
  allpkgs : List String
  batches : List (List String)

/-- The loop that leaves out known packages, `support/scripts/graph-depends:167-173`: the new
packages, and all that are known then. -/
def filterPkgs (pkgs allpkgs : List String) : List String × List String :=
  pkgs.foldl (fun (filtered, allpkgs) pkg ↦
    if pkg ∈ allpkgs then (filtered, allpkgs) else (filtered ++ [pkg], allpkgs ++ [pkg]))
    ([], allpkgs)

/-- The loop over the new packages, `support/scripts/graph-depends:180-191`; `none` when a package
is missing in the dictionary. -/
def listDependencies (depends : Deps) (filtered : List String) : Option (List (String × String)) :=
  (filtered.mapM fun pkg ↦ (depends.lookup pkg).map fun ds ↦ ds.map fun d ↦ (pkg, d)).map
    List.flatten

/-- `get_all_depends`, `support/scripts/graph-depends:164-198`, with at most `fuel` nested calls. -/
def getAllDepends (a : Asking) :
    Nat → List String → Collected → Option (List (String × String) × Collected)
  | 0, _, _ => none
  | fuel + 1, pkgs, s => do
    let (filtered, allpkgs) := filterPkgs pkgs s.allpkgs
    if filtered = [] then some ([], { s with allpkgs := allpkgs })
    else
      let depends ← a.getDepends filtered
      let s : Collected := ⟨allpkgs, s.batches ++ [filtered]⟩
      let dependencies ← listDependencies depends filtered
      let deps := a.setOrder (dependencies.map Prod.snd)
      if deps = [] then some (dependencies, s)
      else
        let (newdeps, s) ← getAllDepends a fuel deps s
        some (dependencies ++ newdeps, s)

/-! ### What a call collects -/

/-- `get_depends` returns the dependencies of each package that it is asked for. -/
def Asking.Answers (a : Asking) (rel : String → List String) : Prop :=
  ∀ pkgs, ∃ deps, a.getDepends pkgs = some deps ∧ ∀ p ∈ pkgs, deps.lookup p = some (rel p)

variable {a : Asking} {rel : String → List String} {pkgs allpkgs : List String}

/-- The pairs of some packages. -/
def pairs (rel : String → List String) (B : List String) : List (String × String) :=
  B.flatMap fun p ↦ (rel p).map fun d ↦ (p, d)

/-- What a call has done: the packages of `B`, in this order, were new and have been expanded. -/
structure Expands (rel : String → List String) (pkgs : List String) (s : Collected)
    (B : List String) (out : List (String × String)) (s' : Collected) : Prop where
  allpkgs : s'.allpkgs = s.allpkgs ++ B
  batches : s'.batches.flatten = s.batches.flatten ++ B
  out : out = pairs rel B
  nodup : B.Nodup
  new : ∀ p ∈ B, p ∉ s.allpkgs
  roots : ∀ p ∈ pkgs, p ∈ s'.allpkgs
  closed : ∀ p ∈ B, ∀ d ∈ rel p, d ∈ s'.allpkgs
  reached : ∀ p ∈ B, ∃ r ∈ pkgs, ReflTransGen (fun p d ↦ d ∈ rel p) r p

-- The loop from any packages that it has found so far.
private theorem filterPkgs_from (pkgs filtered allpkgs : List String) :
    ∃ B, pkgs.foldl (fun (filtered, allpkgs) pkg ↦
        if pkg ∈ allpkgs then (filtered, allpkgs) else (filtered ++ [pkg], allpkgs ++ [pkg]))
        (filtered, allpkgs) = (filtered ++ B, allpkgs ++ B) ∧
      B.Nodup ∧ (∀ p ∈ B, p ∈ pkgs ∧ p ∉ allpkgs) ∧ ∀ p ∈ pkgs, p ∈ allpkgs ++ B := by
  induction pkgs generalizing filtered allpkgs with
  | nil => exact ⟨[], by simp⟩
  | cons pkg pkgs ih =>
    rw [List.foldl_cons]
    by_cases hpkg : pkg ∈ allpkgs
    · obtain ⟨B, hrun, hnodup, hnew, hall⟩ := ih filtered allpkgs
      refine ⟨B, by simpa [hpkg] using hrun, hnodup, ?_, ?_⟩
      · exact fun p hp ↦ ⟨List.mem_cons_of_mem _ (hnew p hp).1, (hnew p hp).2⟩
      · rw [List.forall_mem_cons]
        exact ⟨List.mem_append_left _ hpkg, hall⟩
    · obtain ⟨B, hrun, hnodup, hnew, hall⟩ := ih (filtered ++ [pkg]) (allpkgs ++ [pkg])
      refine ⟨pkg :: B, by simpa [hpkg] using hrun, ?_, ?_, ?_⟩
      · rw [List.nodup_cons]
        exact ⟨fun hmem ↦ (hnew pkg hmem).2 (by simp), hnodup⟩
      · rw [List.forall_mem_cons]
        refine ⟨⟨List.mem_cons_self, hpkg⟩, fun p hp ↦ ⟨List.mem_cons_of_mem _ (hnew p hp).1, ?_⟩⟩
        exact fun hmem ↦ (hnew p hp).2 (List.mem_append_left _ hmem)
      · rw [List.forall_mem_cons]
        exact ⟨by simp, fun p hp ↦ by simpa using hall p hp⟩

/-- The new packages of a batch, each once. -/
theorem filterPkgs_spec (pkgs allpkgs : List String) :
    ∃ B, filterPkgs pkgs allpkgs = (B, allpkgs ++ B) ∧ B.Nodup ∧
      (∀ p ∈ B, p ∈ pkgs ∧ p ∉ allpkgs) ∧ ∀ p ∈ pkgs, p ∈ allpkgs ++ B := by
  obtain ⟨B, hrun, hrest⟩ := filterPkgs_from pkgs [] allpkgs
  exact ⟨B, hrun, hrest⟩

/-- The dependencies of a batch. -/
theorem listDependencies_eq {depends : Deps} {B : List String}
    (hB : ∀ p ∈ B, depends.lookup p = some (rel p)) :
    listDependencies depends B = some (pairs rel B) := by
  have hmap : (B.mapM fun pkg ↦ (depends.lookup pkg).map fun ds ↦ ds.map fun d ↦ (pkg, d)) =
      some (B.map fun p ↦ (rel p).map fun d ↦ (p, d)) := by
    induction B with
    | nil => rfl
    | cons p B ih =>
      rw [List.forall_mem_cons] at hB
      rw [List.mapM_cons, hB.1, ih hB.2]
      rfl
  rw [listDependencies, hmap, Option.map_some, pairs, List.flatMap_def]

/-- The packages of `U` that are not known yet. -/
def unknown (U : Finset String) (allpkgs : List String) : Nat :=
  (U.filter (· ∉ allpkgs)).card

/-- New packages make them fewer. -/
theorem unknown_append {U : Finset String} {B : List String} (hne : B ≠ [])
    (hB : ∀ p ∈ B, p ∈ U ∧ p ∉ allpkgs) : unknown U (allpkgs ++ B) < unknown U allpkgs := by
  obtain ⟨p, hp⟩ := List.exists_mem_of_ne_nil B hne
  apply Finset.card_lt_card
  rw [Finset.ssubset_iff_of_subset]
  · refine ⟨p, by simpa using hB p hp, ?_⟩
    simp [hp]
  · intro q hq
    simp only [Finset.mem_filter, List.mem_append, not_or] at hq ⊢
    exact ⟨hq.1, hq.2.1⟩

/-- A call ends, and expands what it finds new, when the nested calls are not fewer than the unknown
packages. -/
theorem expands_getAllDepends (ha : a.Answers rel) {U : Finset String}
    (hU : ∀ p ∈ U, ∀ d ∈ rel p, d ∈ U) {fuel : Nat} {s : Collected} (hpkgs : ∀ p ∈ pkgs, p ∈ U)
    (hfuel : unknown U s.allpkgs < fuel) :
    ∃ out s' B, getAllDepends a fuel pkgs s = some (out, s') ∧ Expands rel pkgs s B out s' := by
  induction fuel generalizing pkgs s with
  | zero => omega
  | succ fuel ih =>
    obtain ⟨B, hfilter, hnodup, hnew, hall⟩ := filterPkgs_spec pkgs s.allpkgs
    rw [getAllDepends]
    simp only [hfilter]
    by_cases hB : B = []
    · subst hB
      refine ⟨[], _, [], if_pos rfl, ?_⟩
      refine ⟨rfl, by simp, rfl, .nil, by simp, hall, by simp, by simp⟩
    · obtain ⟨deps, hdeps, hlookup⟩ := ha B
      have hU' : ∀ p ∈ B, p ∈ U ∧ p ∉ s.allpkgs :=
        fun p hp ↦ ⟨hpkgs p (hnew p hp).1, (hnew p hp).2⟩
      have hset : ∀ d, d ∈ a.setOrder ((pairs rel B).map Prod.snd) ↔ ∃ p ∈ B, d ∈ rel p := by
        intro d
        rw [(a.setOrder_perm _).mem_iff, List.mem_dedup]
        simp [pairs]
      simp only [if_neg hB, hdeps, Option.bind_eq_bind, Option.bind_some,
        listDependencies_eq hlookup]
      by_cases hlast : a.setOrder ((pairs rel B).map Prod.snd) = []
      · refine ⟨_, _, B, if_pos hlast, ?_⟩
        have hnone : ∀ p ∈ B, ∀ d, d ∉ rel p := by
          intro p hp d hd
          have hmem := (hset d).mpr ⟨p, hp, hd⟩
          rw [hlast] at hmem
          cases hmem
        exact ⟨rfl, by simp, rfl, hnodup, fun p hp ↦ (hnew p hp).2, hall,
          fun p hp d hd ↦ absurd hd (hnone p hp d), fun p hp ↦ ⟨p, (hnew p hp).1, .refl⟩⟩
      · have hnext : ∀ d ∈ a.setOrder ((pairs rel B).map Prod.snd), d ∈ U := by
          intro d hd
          obtain ⟨p, hp, hd⟩ := (hset d).mp hd
          exact hU p (hU' p hp).1 d hd
        have hless : unknown U (s.allpkgs ++ B) < fuel := by
          have hfewer := unknown_append hB hU'
          omega
        obtain ⟨out, s', B', hrun, hE⟩ :=
          ih (s := ⟨s.allpkgs ++ B, s.batches ++ [B]⟩) hnext hless
        refine ⟨pairs rel B ++ out, s', B ++ B', by rw [if_neg hlast, hrun]; rfl, ?_⟩
        have hkept : ∀ p ∈ s.allpkgs ++ B, p ∈ s'.allpkgs := by
          rw [hE.allpkgs]
          exact fun p hp ↦ List.mem_append_left _ hp
        have hbelow : ∀ p ∈ B', p ∉ s.allpkgs ∧ p ∉ B := by
          intro p hp
          simpa using hE.new p hp
        constructor
        · rw [hE.allpkgs, List.append_assoc]
        · rw [hE.batches]
          simp
        · rw [hE.out, pairs, pairs, pairs, List.flatMap_append]
        · rw [List.nodup_append]
          refine ⟨hnodup, hE.nodup, ?_⟩
          rintro p hp q hq rfl
          exact (hbelow p hq).2 hp
        · intro p hp
          rcases List.mem_append.mp hp with hp | hp
          · exact (hnew p hp).2
          · exact (hbelow p hp).1
        · exact fun p hp ↦ hkept p (hall p hp)
        · intro p hp d hd
          rcases List.mem_append.mp hp with hp | hp
          · exact hE.roots d ((hset d).mpr ⟨p, hp, hd⟩)
          · exact hE.closed p hp d hd
        · intro p hp
          rcases List.mem_append.mp hp with hp | hp
          · exact ⟨p, (hnew p hp).1, .refl⟩
          · obtain ⟨r, hr, hpath⟩ := hE.reached p hp
            obtain ⟨q, hq, hedge⟩ := (hset r).mp hr
            exact ⟨q, (hnew q hq).1, .head hedge hpath⟩

/-- The packages that the roots lead to. -/
def ReachedFrom (rel : String → List String) (roots : List String) (p : String) : Prop :=
  ∃ r ∈ roots, ReflTransGen (fun p d ↦ d ∈ rel p) r p

/-- What the roots lead to stays in a closed set. -/
theorem ReachedFrom.mem {roots : List String} {U : Finset String} {p : String}
    (h : ReachedFrom rel roots p) (hroots : ∀ p ∈ roots, p ∈ U)
    (hU : ∀ p ∈ U, ∀ d ∈ rel p, d ∈ U) : p ∈ U := by
  obtain ⟨r, hr, hpath⟩ := h
  induction hpath with
  | refl => exact hroots r hr
  | tail _ hd ih => exact hU _ ih _ hd

open Classical in
/-- The number of times that a pair is listed. -/
theorem count_pairs {B : List String} (hB : B.Nodup) (p d : String) :
    (pairs rel B).count (p, d) = if p ∈ B then (rel p).count d else 0 := by
  have hkeys : (B.map id).Nodup := by simpa using hB
  by_cases hp : p ∈ B
  · rw [if_pos hp]
    exact count_edges_of_mem hkeys hp d
  · rw [if_neg hp]
    have hnot : p ∉ B.map id := by simpa using hp
    exact count_edges_of_notMem hnot d

open Classical in
/-- For every finite relation, cyclic or not, the function ends and returns each dependency of each
package that the roots lead to, as often as the relation has it; each of these packages has been
asked for once. None of them is known at the start: `allpkgs` is empty, or holds just the package
`all` that stands for the roots. -/
theorem getAllDepends_reached (a : Asking) (rel : String → List String) (ha : a.Answers rel)
    (roots known : List String) (hknown : ∀ p, ReachedFrom rel roots p → p ∉ known)
    (U : Finset String) (hroots : ∀ p ∈ roots, p ∈ U) (hU : ∀ p ∈ U, ∀ d ∈ rel p, d ∈ U)
    (fuel : Nat) (hfuel : U.card < fuel) :
    ∃ out s, getAllDepends a fuel roots ⟨known, []⟩ = some (out, s) ∧
      (∀ p d, out.count (p, d) = if ReachedFrom rel roots p then (rel p).count d else 0) ∧
      s.batches.flatten.Nodup ∧ ∀ p, p ∈ s.batches.flatten ↔ ReachedFrom rel roots p := by
  have hless : unknown U known < fuel := (Finset.card_filter_le _ _).trans_lt hfuel
  obtain ⟨out, s, B, hrun, hE⟩ := expands_getAllDepends ha hU (s := ⟨known, []⟩) hroots hless
  have hbatches : s.batches.flatten = B := by simpa using hE.batches
  have hmem : ∀ p, p ∈ B ↔ ReachedFrom rel roots p := by
    intro p
    constructor
    · exact hE.reached p
    · -- A package on the way is in `allpkgs` and was not known at the start.
      rintro ⟨r, hr, hpath⟩
      have hin : ∀ q, ReachedFrom rel roots q → q ∈ s.allpkgs → q ∈ B := by
        intro q hq hmem
        rw [hE.allpkgs] at hmem
        exact (List.mem_append.mp hmem).resolve_left (hknown q hq)
      induction hpath with
      | refl => exact hin r ⟨r, hr, .refl⟩ (hE.roots r hr)
      | @tail q d hq hd ih => exact hin d ⟨r, hr, hq.tail hd⟩ (hE.closed q ih d hd)
  refine ⟨out, s, hrun, ?_, ?_, ?_⟩
  · intro p d
    simp only [hE.out, count_pairs hE.nodup, hmem]
  · rw [hbatches]
    exact hE.nodup
  · rw [hbatches]
    exact hmem

/-- Packages that depend on each other. -/
def mutualRel (p : String) : List String :=
  if p = "python" then ["libffi", "zlib"]
  else if p = "libffi" then ["python"]
  else []

/-- A `make` that knows them. -/
def mutualAsking : Asking where
  getDepends pkgs :=
    some (pkgs.map fun p ↦ (⟨p, mutualRel p⟩ : (_ : String) × List String)).toFinmap
  setOrder l := l.dedup
  setOrder_perm _ := .refl _

private theorem mutualAsking_answers : mutualAsking.Answers mutualRel := by
  intro pkgs
  refine ⟨_, rfl, fun p hp ↦ ?_⟩
  rw [Finmap.dlookup_list_toFinmap]
  induction pkgs with
  | nil => cases hp
  | cons q pkgs ih =>
    rw [List.map_cons]
    by_cases hq : p = q
    · subst hq
      exact List.dlookup_cons_eq _ _ _
    · rw [List.dlookup_cons_ne _ _ hq]
      exact ih ((List.mem_cons.mp hp).resolve_left hq)

open Classical in
/-- The dependencies of two packages that depend on each other, in full mode. -/
theorem getAllDepends_reached_mutual :
    ∃ out s, getAllDepends mutualAsking 4 ["zlib", "python"] ⟨["all"], []⟩ = some (out, s) ∧
      (∀ p d, out.count (p, d) =
        if ReachedFrom mutualRel ["zlib", "python"] p then (mutualRel p).count d else 0) ∧
      s.batches.flatten.Nodup ∧
      ∀ p, p ∈ s.batches.flatten ↔ ReachedFrom mutualRel ["zlib", "python"] p := by
  have hU : ∀ p ∈ ({"python", "libffi", "zlib"} : Finset String), ∀ d ∈ mutualRel p,
      d ∈ ({"python", "libffi", "zlib"} : Finset String) := by decide
  have hroots : ∀ p ∈ ["zlib", "python"], p ∈ ({"python", "libffi", "zlib"} : Finset String) := by
    decide
  have hknown : ∀ p, ReachedFrom mutualRel ["zlib", "python"] p → p ∉ ["all"] := by
    intro p hp hall
    obtain rfl := List.mem_singleton.mp hall
    exact absurd (hp.mem hroots hU) (by decide)
  exact getAllDepends_reached mutualAsking mutualRel mutualAsking_answers _ _ hknown _ hroots hU 4
    (by decide)

end MotionPie.Support.GraphDepends
