import Mathlib.Data.Finmap
import Mathlib.Data.List.Chain
import Mathlib.Data.Set.Finite.Basic
import MotionPie.Graph.Reduction

/-!
# Trimming the package dependency graph

`support/scripts/graph-depends`, from `is_dep` to `remove_extra_deps`. The dictionary
is a finite map; the two `list(deps.keys())` loops take their visiting orders as
arguments. `is_dep` recurses without a visited set, so its recursion depth is explicit
and `none` stands for an unbounded recursion (or a `KeyError`).
-/

namespace MotionPie.Support.GraphDepends

open MotionPie.Graph Relation

/-- `dict_deps`: the dependency list of every package that has dependencies. -/
abbrev Deps := Finmap fun _ : String ↦ List String

/-- `is_dep`, `support/scripts/graph-depends:243-250`, with at most `depth` nested calls. -/
def isDep (deps : Deps) : Nat → String → String → Option Bool
  | 0, _, _ => none
  | depth + 1, pkg, pkg2 =>
    match deps.lookup pkg2 with
    | none => some false
    | some ps => ps.anyM fun p ↦ if pkg = p then some true else isDep deps depth pkg p

/-- `keep_me` for the dependency `p` at index `i` of `d`,
`support/scripts/graph-depends:264-269`. The loop over `j` has no early exit. -/
def keepMe (deps : Deps) (depth : Nat) (d : List String) (p : String) (i : Nat) : Option Bool :=
  d.zipIdx.foldlM (fun keep qj ↦
    if qj.2 = i then some keep
    else do
      let dep ← isDep deps depth p qj.1
      return if dep then false else keep) true

/-- `remove_transitive_deps`, `support/scripts/graph-depends:260-272`. -/
def removeTransitiveDeps (deps : Deps) (depth : Nat) (pkg : String) : Option (List String) := do
  let d ← deps.lookup pkg
  d.zipIdx.foldlM (fun newD pi ↦ do
    let keep ← keepMe deps depth d pi.1 pi.2
    return if keep then newD ++ [pi.1] else newD) []

/-- The packages that `remove_mandatory_deps` drops. -/
def mandatory : List String := ["toolchain", "skeleton"]

/-- `remove_mandatory_deps`, `support/scripts/graph-depends:276-277`. -/
def removeMandatoryDeps (deps : Deps) (pkg : String) : Option (List String) :=
  (deps.lookup pkg).map fun d ↦ d.filter (· ∉ mandatory)

/-- Body of the first loop of `remove_extra_deps`. -/
def mandatoryStep (deps : Deps) (pkg : String) : Option Deps :=
  if pkg = "all" then some deps
  else (removeMandatoryDeps deps pkg).map fun l ↦ deps.insert pkg l

/-- Body of the second loop of `remove_extra_deps`. -/
def transitiveStep (transitive : Bool) (depth : Nat) (deps : Deps) (pkg : String) : Option Deps :=
  if !transitive || pkg = "all" then
    (removeTransitiveDeps deps depth pkg).map fun l ↦ deps.insert pkg l
  else some deps

/-- `remove_extra_deps`, `support/scripts/graph-depends:281-288`. The lists are replaced
in place: later steps read the dictionary that earlier ones have changed. -/
def removeExtraDeps (transitive : Bool) (depth : Nat) (keys keys' : List String) (deps : Deps) :
    Option Deps := do
  let trimmed ← keys.foldlM mandatoryStep deps
  keys'.foldlM (transitiveStep transitive depth) trimmed

/-! ### The graph of a dictionary -/

/-- `d` is listed among the dependencies of `p`. -/
def Edge (deps : Deps) (p d : String) : Prop := ∃ l, deps.lookup p = some l ∧ d ∈ l

/-- The edges left once the mandatory packages are dropped. -/
def GivenEdge (deps : Deps) (p d : String) : Prop :=
  Edge deps p d ∧ (p = "all" ∨ d ∉ mandatory)

/-- A visiting order of the dictionary's keys. -/
def Visits (keys : List String) (deps : Deps) : Prop := keys.Nodup ∧ ∀ p, p ∈ keys ↔ p ∈ deps

/-- Every dependency list is repetition-free. -/
def NodupLists (deps : Deps) : Prop := ∀ p l, deps.lookup p = some l → l.Nodup

/-- A package without an entry has no dependencies. -/
theorem edge_of_lookup_none {deps : Deps} {p : String} (h : deps.lookup p = none) (d : String) :
    ¬ Edge deps p d := by
  simp [Edge, h]

/-- The dependencies of a package with an entry are the members of its list. -/
theorem edge_of_lookup_some {deps : Deps} {p : String} {l : List String}
    (h : deps.lookup p = some l) (d : String) : Edge deps p d ↔ d ∈ l := by
  simp [Edge, h]

/-- A package with a dependency is a key. -/
theorem Edge.mem {deps : Deps} {p d : String} (h : Edge deps p d) : p ∈ deps := by
  obtain ⟨l, hl, -⟩ := h
  exact Finmap.mem_of_lookup_eq_some hl

/-- Every package has finitely many dependencies. -/
theorem finite_edge (deps : Deps) (p : String) : {d | Edge deps p d}.Finite := by
  cases h : deps.lookup p with
  | none => simp [edge_of_lookup_none h]
  | some l => simpa only [edge_of_lookup_some h] using l.finite_toSet

/-! ### `is_dep` decides reachability -/

-- What a short-circuiting search over a list answers, from what it answers on each member.
private theorem anyM_some {α : Type} {f : α → Option Bool} {Q : α → Prop} {l : List α} {b : Bool}
    (hf : ∀ a ∈ l, ∀ b, f a = some b → (b = true ↔ Q a)) (h : l.anyM f = some b) :
    b = true ↔ ∃ a ∈ l, Q a := by
  induction l with
  | nil =>
    obtain rfl : false = b := by simpa [List.anyM] using h
    simp
  | cons a l ih =>
    rw [List.anyM] at h
    cases ha : f a with
    | none => simp [ha] at h
    | some c =>
      have hc := hf a (by simp) c ha
      cases c with
      | true =>
        obtain rfl : true = b := by simpa [ha] using h
        simp [hc.mp rfl]
      | false =>
        have hb := ih (fun a' ha' ↦ hf a' (by simp [ha'])) (by simpa [ha] using h)
        have hQ : ¬ Q a := by simpa using hc
        simp [hb, hQ]

-- A search without an answer met a member without an answer.
private theorem anyM_none {α : Type} {f : α → Option Bool} {l : List α} (h : l.anyM f = none) :
    ∃ a ∈ l, f a = none := by
  induction l with
  | nil => simp [List.anyM] at h
  | cons a l ih =>
    rw [List.anyM] at h
    cases ha : f a with
    | none => exact ⟨a, by simp, ha⟩
    | some c =>
      cases c with
      | true => simp [ha] at h
      | false =>
        obtain ⟨a', hmem, hnone⟩ := ih (by simpa [ha] using h)
        exact ⟨a', by simp [hmem], hnone⟩

/-- An answer of `is_dep` is right on every dictionary, acyclic or not. -/
theorem isDep_sound {deps : Deps} {depth : Nat} {pkg pkg2 : String} {b : Bool}
    (h : isDep deps depth pkg pkg2 = some b) : b = true ↔ TransGen (Edge deps) pkg2 pkg := by
  induction depth generalizing pkg2 b with
  | zero => simp [isDep] at h
  | succ depth ih =>
    rw [isDep] at h
    cases hl : deps.lookup pkg2 with
    | none =>
      obtain rfl : false = b := by simpa [hl] using h
      simp [TransGen.head'_iff, edge_of_lookup_none hl]
    | some ps =>
      simp only [hl] at h
      have hf : ∀ p ∈ ps, ∀ b, (if pkg = p then some true else isDep deps depth pkg p) = some b →
          (b = true ↔ ReflTransGen (Edge deps) p pkg) := by
        intro p _ b hb
        split at hb
        · next he =>
          subst he
          obtain rfl : true = b := by simpa using hb
          simp [ReflTransGen.refl]
        · next hne => simp [reflTransGen_iff_eq_or_transGen, hne, ih hb]
      rw [anyM_some hf h, TransGen.head'_iff]
      simp only [edge_of_lookup_some hl]

-- A call without an answer leaves a dependency path of its whole depth through keys.
private theorem isDep_none {deps : Deps} {depth : Nat} {pkg pkg2 : String}
    (h : isDep deps depth pkg pkg2 = none) :
    ∃ path : List String, path.length = depth ∧ (∀ p ∈ path, p ∈ deps) ∧
      path.IsChain (Edge deps) ∧ ∀ p ∈ path.head?, p = pkg2 := by
  induction depth generalizing pkg2 with
  | zero => exact ⟨[], by simp⟩
  | succ depth ih =>
    rw [isDep] at h
    cases hl : deps.lookup pkg2 with
    | none => simp [hl] at h
    | some ps =>
      simp only [hl] at h
      obtain ⟨p, hp, hnone⟩ := anyM_none h
      obtain ⟨path, hlen, hmem, hchain, hhead⟩ := ih (by
        split at hnone
        · cases hnone
        · exact hnone)
      refine ⟨pkg2 :: path, by simp [hlen], ?_, ?_, by simp⟩
      · intro q hq
        rcases List.mem_cons.mp hq with rfl | hq
        · exact Finmap.mem_of_lookup_eq_some hl
        · exact hmem q hq
      · rw [List.isChain_cons]
        refine ⟨?_, hchain⟩
        intro q hq
        rw [hhead q hq]
        exact ⟨ps, hl, hp⟩

/-- On an acyclic dictionary the recursion is no deeper than the number of packages. -/
theorem isDep_total {deps : Deps} (hd : Acyclic (Edge deps)) {depth : Nat}
    (hdepth : deps.keys.card < depth) (pkg pkg2 : String) : isDep deps depth pkg pkg2 ≠ none := by
  intro h
  obtain ⟨path, hlen, hmem, hchain, -⟩ := isDep_none h
  have htrans : path.IsChain (TransGen (Edge deps)) := hchain.imp fun _ _ ↦ .single
  have hnodup : path.Nodup := by
    apply (List.isChain_iff_pairwise.mp htrans).imp
    rintro a b hab rfl
    exact hd a hab
  have hsub : path.toFinset ⊆ deps.keys := by
    intro p hp
    exact Finmap.mem_keys.mpr (hmem p (List.mem_toFinset.mp hp))
  have hcard := Finset.card_le_card hsub
  rw [List.toFinset_card_of_nodup hnodup, hlen] at hcard
  omega

open Classical in
/-- `is_dep` on an acyclic dictionary, with enough recursion depth. -/
theorem isDep_eq {deps : Deps} (hd : Acyclic (Edge deps)) {depth : Nat}
    (hdepth : deps.keys.card < depth) (pkg pkg2 : String) :
    isDep deps depth pkg pkg2 = some (decide (TransGen (Edge deps) pkg2 pkg)) := by
  cases h : isDep deps depth pkg pkg2 with
  | none => exact absurd h (isDep_total hd hdepth pkg pkg2)
  | some b =>
    congr 1
    rw [Bool.eq_iff_iff, decide_eq_true_iff]
    exact isDep_sound h

/-! ### One package -/

section Package

variable {deps : Deps} {depth : Nat}

-- A loop whose steps all succeed is a plain fold.
private theorem foldlM_total {α β : Type} {f : β → α → Option β} {g : β → α → β} {l : List α}
    (h : ∀ a ∈ l, ∀ b, f b a = some (g b a)) (b : β) : l.foldlM f b = some (l.foldl g b) := by
  induction l generalizing b with
  | nil => rfl
  | cons a l ih =>
    rw [List.foldlM_cons, h a (by simp), List.foldl_cons]
    exact ih (fun a' ha' ↦ h a' (by simp [ha'])) (g b a)

-- A flag that some members of the list lower, and that nothing raises again.
private theorem foldl_flag {α : Type} (P : α → Prop) [DecidablePred P] (l : List α) (b : Bool) :
    l.foldl (fun keep a ↦ if P a then false else keep) b = (b && decide (∀ a ∈ l, ¬ P a)) := by
  induction l generalizing b with
  | nil => simp
  | cons a l ih =>
    rw [List.foldl_cons, ih]
    by_cases ha : P a <;> simp [ha]

-- Collecting the first components that pass a test is a filter.
private theorem foldl_collect {α : Type} (P : α → Bool) (l : List (α × Nat)) (acc : List α) :
    l.foldl (fun acc ai ↦ if P ai.1 then acc ++ [ai.1] else acc) acc =
      acc ++ (l.map Prod.fst).filter P := by
  induction l generalizing acc with
  | nil => simp
  | cons a l ih =>
    rw [List.foldl_cons, ih]
    by_cases ha : P a.1 <;> simp [ha]

-- In a repetition-free list another index is another element.
private theorem zipIdx_ne {d : List String} (hnd : d.Nodup) {pi qj : String × Nat}
    (hp : pi ∈ d.zipIdx) (hq : qj ∈ d.zipIdx) : qj.2 = pi.2 ↔ qj.1 = pi.1 := by
  have hp' := List.mem_zipIdx_iff_getElem?.mp hp
  have hq' := List.mem_zipIdx_iff_getElem?.mp hq
  constructor
  · intro h
    rw [h, hp'] at hq'
    exact (Option.some.inj hq').symm
  · intro h
    obtain ⟨hi, _⟩ := List.getElem?_eq_some_iff.mp hp'
    refine ((List.getElem?_inj hi hnd).mp ?_).symm
    rw [hp', hq', h]

open Classical in
/-- A dependency is kept when no other dependency of the package reaches it. -/
theorem keepMe_eq (hd : Acyclic (Edge deps)) (hdepth : deps.keys.card < depth) {pkg : String}
    {d : List String} (hl : deps.lookup pkg = some d) (hnd : d.Nodup) {pi : String × Nat}
    (hp : pi ∈ d.zipIdx) :
    keepMe deps depth d pi.1 pi.2 = some (decide (¬ Covered (Edge deps) pkg pi.1)) := by
  have hstep : ∀ qj ∈ d.zipIdx, ∀ keep : Bool,
      (if qj.2 = pi.2 then some keep
        else do
          let dep ← isDep deps depth pi.1 qj.1
          return if dep then false else keep) =
        some (if qj.1 ≠ pi.1 ∧ TransGen (Edge deps) qj.1 pi.1 then false else keep) := by
    intro qj hq keep
    have hne := zipIdx_ne hnd hp hq
    by_cases he : qj.1 = pi.1
    · simp [hne.mpr he, he]
    · simp [hne, he, isDep_eq hd hdepth]
  rw [keepMe, foldlM_total hstep,
    foldl_flag (fun qj : String × Nat ↦ qj.1 ≠ pi.1 ∧ TransGen (Edge deps) qj.1 pi.1)]
  rw [Bool.true_and, Option.some.injEq, decide_eq_decide]
  constructor
  · rintro h ⟨c, hc, hpc, hcp⟩
    obtain ⟨j, hj⟩ := List.getElem?_of_mem ((edge_of_lookup_some hl c).mp hpc)
    exact h (c, j) (List.mem_zipIdx_iff_getElem?.mpr hj) ⟨hc, hcp⟩
  · rintro h qj hq ⟨hne, hreach⟩
    have hmem : qj.1 ∈ d := List.mem_of_getElem? (List.mem_zipIdx_iff_getElem?.mp hq)
    exact h ⟨qj.1, hne, (edge_of_lookup_some hl _).mpr hmem, hreach⟩

open Classical in
/-- `remove_transitive_deps` keeps exactly the uncovered dependencies, in their order. -/
theorem removeTransitiveDeps_eq (hd : Acyclic (Edge deps)) (hdepth : deps.keys.card < depth)
    {pkg : String} {d : List String} (hl : deps.lookup pkg = some d) (hnd : d.Nodup) :
    removeTransitiveDeps deps depth pkg =
      some (d.filter fun p ↦ decide (¬ Covered (Edge deps) pkg p)) := by
  have hstep : ∀ pi ∈ d.zipIdx, ∀ newD : List String,
      (do
        let keep ← keepMe deps depth d pi.1 pi.2
        return if keep then newD ++ [pi.1] else newD) =
        some (if decide (¬ Covered (Edge deps) pkg pi.1) then newD ++ [pi.1] else newD) := by
    intro pi hp newD
    rw [keepMe_eq hd hdepth hl hnd hp]
    rfl
  rw [removeTransitiveDeps, hl]
  change d.zipIdx.foldlM _ [] = _
  rw [foldlM_total hstep, foldl_collect fun p ↦ decide (¬ Covered (Edge deps) pkg p)]
  simp

end Package

/-! ### The two loops -/

/-- The lists of the packages of `done` have been replaced through `f`, the others not yet. -/
def Visited (f : String → List String → List String) (done : List String) (deps cur : Deps) :
    Prop :=
  ∀ p, cur.lookup p = if p ∈ done then (deps.lookup p).map (f p) else deps.lookup p

/-- What the first loop makes of one dependency list. -/
def given (p : String) (d : List String) : List String :=
  if p = "all" then d else d.filter (· ∉ mandatory)

open Classical in
/-- What the second loop makes of one dependency list, in terms of a fixed graph. -/
noncomputable def uncovered (r : String → String → Prop) (p : String) (d : List String) :
    List String :=
  d.filter fun q ↦ decide (¬ Covered r p q)

section Loops

variable {f : String → List String → List String} {deps cur : Deps} {done : List String}

/-- No key is added or lost while the lists are replaced. -/
theorem Visited.mem_iff (hv : Visited f done deps cur) (p : String) : p ∈ cur ↔ p ∈ deps := by
  rw [← Finmap.lookup_isSome, ← Finmap.lookup_isSome, hv p]
  split <;> simp

/-- Replacing the list of one more package. -/
theorem Visited.insert (hv : Visited f done deps cur) {pkg : String} {l : List String}
    (hl : deps.lookup pkg = some l) : Visited f (pkg :: done) deps (cur.insert pkg (f pkg l)) := by
  intro p
  by_cases hp : p = pkg
  · subst hp
    simp [Finmap.lookup_insert, hl]
  · rw [Finmap.lookup_insert_of_ne cur hp, hv p]
    simp [hp]

/-- A loop over the keys replaces every list, if each of its steps replaces one. -/
theorem Visited.foldlM {step : Deps → String → Option Deps}
    (hstep : ∀ (done : List String) (cur : Deps) (pkg : String) (l : List String),
      Visited f done deps cur → pkg ∉ done → deps.lookup pkg = some l →
      ∃ next, step cur pkg = some next ∧ Visited f (pkg :: done) deps next)
    {keys : List String} (hnd : keys.Nodup) (hkeys : ∀ p ∈ keys, p ∈ deps ∧ p ∉ done)
    (hv : Visited f done deps cur) :
    ∃ out, keys.foldlM step cur = some out ∧ Visited f (keys.reverse ++ done) deps out := by
  induction keys generalizing done cur with
  | nil => exact ⟨cur, rfl, hv⟩
  | cons pkg keys ih =>
    obtain ⟨hmem, hnot⟩ := hkeys pkg (by simp)
    obtain ⟨l, hl⟩ := Finmap.mem_iff.mp hmem
    obtain ⟨next, hnext, hv'⟩ := hstep done cur pkg l hv hnot hl
    have hrest : ∀ p ∈ keys, p ∈ deps ∧ p ∉ pkg :: done := by
      intro p hp
      refine ⟨(hkeys p (by simp [hp])).1, ?_⟩
      rw [List.mem_cons, not_or]
      refine ⟨?_, (hkeys p (by simp [hp])).2⟩
      rintro rfl
      exact (List.nodup_cons.mp hnd).1 hp
    obtain ⟨out, hout, hvout⟩ := ih (List.nodup_cons.mp hnd).2 hrest hv'
    refine ⟨out, ?_, ?_⟩
    · rw [List.foldlM_cons, hnext]
      exact hout
    · simpa using hvout

/-- A loop over all keys, in any order, replaces every list of the dictionary. -/
theorem Visited.loop {step : Deps → String → Option Deps}
    (hstep : ∀ (done : List String) (cur : Deps) (pkg : String) (l : List String),
      Visited f done deps cur → pkg ∉ done → deps.lookup pkg = some l →
      ∃ next, step cur pkg = some next ∧ Visited f (pkg :: done) deps next)
    {keys : List String} (hk : Visits keys deps) :
    ∃ out, keys.foldlM step deps = some out ∧ ∀ p, out.lookup p = (deps.lookup p).map (f p) := by
  have hkeys : ∀ p ∈ keys, p ∈ deps ∧ p ∉ ([] : List String) :=
    fun p hp ↦ ⟨(hk.2 p).mp hp, by simp⟩
  have hinit : Visited f [] deps deps := by simp [Visited]
  obtain ⟨out, hout, hv⟩ := Visited.foldlM hstep hk.1 hkeys hinit
  refine ⟨out, hout, ?_⟩
  intro p
  rw [hv p]
  split
  · rfl
  · next hp =>
    have hnone : deps.lookup p = none := by
      rw [Finmap.lookup_eq_none, ← hk.2 p]
      simpa using hp
    simp [hnone]

end Loops

/-- The first loop drops the mandatory packages from every list but that of `all`. -/
theorem mandatory_loop {deps : Deps} {keys : List String} (hk : Visits keys deps) :
    ∃ out, keys.foldlM mandatoryStep deps = some out ∧
      ∀ p, out.lookup p = (deps.lookup p).map (given p) := by
  apply Visited.loop _ hk
  intro done cur pkg l hv hnot hl
  have hcur : cur.lookup pkg = some l := by rw [hv pkg, if_neg hnot, hl]
  by_cases hall : pkg = "all"
  · -- the list of `all` stays as it is, which is what `given` says of it
    refine ⟨cur, by simp [mandatoryStep, hall], ?_⟩
    intro p
    rw [hv p]
    by_cases hp : p = pkg
    · subst hp
      simp [hl, given, hall]
    · simp [hp]
  · refine ⟨cur.insert pkg (given pkg l), ?_, hv.insert hl⟩
    simp [mandatoryStep, hall, removeMandatoryDeps, hcur, given]

/-- The graph after the first loop. -/
theorem edge_given {deps trimmed : Deps}
    (ht : ∀ p, trimmed.lookup p = (deps.lookup p).map (given p)) (p d : String) :
    Edge trimmed p d ↔ GivenEdge deps p d := by
  cases h : deps.lookup p with
  | none => simp [Edge, GivenEdge, ht p, h]
  | some l =>
    by_cases hall : p = "all"
    · simp [Edge, GivenEdge, ht p, h, given, hall]
    · simp [Edge, GivenEdge, ht p, h, given, hall]

/-- The graph while the second loop runs: the lists of `done` are pruned. -/
theorem edge_visited {deps cur : Deps} {done : List String}
    (hv : Visited (uncovered (Edge deps)) done deps cur) :
    Edge cur = pruneOn (Edge deps) done := by
  funext p d
  apply propext
  cases h : deps.lookup p with
  | none => simp [Edge, pruneOn, hv p, h]
  | some l =>
    by_cases hp : p ∈ done
    · simp [pruneOn, Edge, hv p, h, hp, uncovered]
    · simp [pruneOn, Edge, hv p, h, hp]

/-- The second loop deletes the edges that are covered in the graph it started from, although
its later steps test coverage in lists that earlier ones have already reduced. -/
theorem transitive_loop {deps : Deps} (hd : Acyclic (Edge deps)) (hnd : NodupLists deps)
    {keys : List String} (hk : Visits keys deps) {depth : Nat} (hdepth : deps.keys.card < depth) :
    ∃ out, keys.foldlM (transitiveStep false depth) deps = some out ∧
      ∀ p, out.lookup p = (deps.lookup p).map (uncovered (Edge deps) p) := by
  apply Visited.loop _ hk
  intro done cur pkg l hv hnot hl
  have hfin : ∀ p, {c | Edge deps p c}.Finite := finite_edge deps
  have hcur : cur.lookup pkg = some l := by rw [hv pkg, if_neg hnot, hl]
  have hacyc : Acyclic (Edge cur) := by
    rw [edge_visited hv]
    exact hd.of_reach fun a b h ↦ (reach_pruneOn hd hfin done a b).mp h
  have hcard : cur.keys.card < depth := by
    have hkeys : cur.keys = deps.keys := by
      ext p
      rw [Finmap.mem_keys, Finmap.mem_keys, hv.mem_iff]
    rwa [hkeys]
  -- coverage in the partly reduced lists is coverage in the initial ones
  have hsame : uncovered (Edge cur) pkg l = uncovered (Edge deps) pkg l := by
    apply List.filter_congr
    intro q _
    rw [decide_eq_decide, edge_visited hv, covered_pruneOn hd hfin hnot]
  refine ⟨cur.insert pkg (uncovered (Edge deps) pkg l), ?_, hv.insert hl⟩
  rw [transitiveStep, removeTransitiveDeps_eq hacyc hcard hcur (hnd pkg l hl), ← hsame]
  rfl

/-- Dropping edges keeps a dictionary acyclic. -/
theorem acyclic_given {deps : Deps} (hd : Acyclic (Edge deps)) : Acyclic (GivenEdge deps) :=
  hd.of_reach <| TransGen.mono fun _ _ h ↦ h.1

/-- Both loops together, in any visiting orders. -/
theorem removeExtraDeps_lookup {deps : Deps} (hd : Acyclic (Edge deps)) (hnd : NodupLists deps)
    {keys keys' : List String} (hk : Visits keys deps) (hk' : Visits keys' deps) {depth : Nat}
    (hdepth : deps.keys.card < depth) :
    ∃ out, removeExtraDeps false depth keys keys' deps = some out ∧
      ∀ p, out.lookup p =
        (deps.lookup p).map fun d ↦ uncovered (GivenEdge deps) p (given p d) := by
  obtain ⟨trimmed, htrim, hlook⟩ := mandatory_loop hk
  have hedge : Edge trimmed = GivenEdge deps := by
    funext p d
    exact propext (edge_given hlook p d)
  have hmem : ∀ p, p ∈ trimmed ↔ p ∈ deps := by
    intro p
    rw [← Finmap.lookup_isSome, ← Finmap.lookup_isSome, hlook p, Option.isSome_map]
  have hnd' : NodupLists trimmed := by
    intro p l hl
    rw [hlook p, Option.map_eq_some_iff] at hl
    obtain ⟨d, hd, rfl⟩ := hl
    unfold given
    split
    · exact hnd p d hd
    · exact (hnd p d hd).filter _
  have hcard : trimmed.keys.card < depth := by
    have hkeys : trimmed.keys = deps.keys := by
      ext p
      rw [Finmap.mem_keys, Finmap.mem_keys, hmem]
    rwa [hkeys]
  obtain ⟨out, hout, hlook'⟩ := transitive_loop (by rw [hedge]; exact acyclic_given hd) hnd'
    ⟨hk'.1, fun p ↦ (hk'.2 p).trans (hmem p).symm⟩ hcard
  refine ⟨out, ?_, ?_⟩
  · rw [removeExtraDeps, htrim]
    exact hout
  · intro p
    rw [hlook' p, hlook p, hedge, Option.map_map]
    rfl

/-- On an acyclic dictionary `remove_extra_deps` without transitive display terminates, and
whatever the visiting orders, it leaves the one transitive reduction of the graph without the
mandatory packages, each list a sublist of the original one. -/
theorem removeExtraDeps_isReduction (deps : Deps) (hd : Acyclic (Edge deps))
    (hnd : NodupLists deps) :
    ∃ out : Deps,
      (∀ keys keys' depth, Visits keys deps → Visits keys' deps → deps.keys.card < depth →
        removeExtraDeps false depth keys keys' deps = some out) ∧
      IsReduction (GivenEdge deps) (Edge out) ∧
      (∀ s, IsReduction (GivenEdge deps) s → s = Edge out) ∧
      (∀ p d, Edge out p d → GivenEdge deps p d) ∧
      ∀ p l, out.lookup p = some l → ∃ l', deps.lookup p = some l' ∧ l.Sublist l' := by
  have hvisits : Visits deps.keys.toList deps :=
    ⟨Finset.nodup_toList _, fun p ↦ by rw [Finset.mem_toList, Finmap.mem_keys]⟩
  obtain ⟨out, _, hlook⟩ :=
    removeExtraDeps_lookup hd hnd hvisits hvisits (Nat.lt_succ_self deps.keys.card)
  have hedge : Edge out = pruneOn (GivenEdge deps) deps.keys.toList := by
    funext p d
    apply propext
    cases h : deps.lookup p with
    | none => simp [Edge, pruneOn, GivenEdge, hlook p, h]
    | some l =>
      have hmem : p ∈ deps.keys.toList := (hvisits.2 p).mpr (Finmap.mem_of_lookup_eq_some h)
      simp only [Edge, pruneOn, GivenEdge, hlook p, h, hmem, uncovered, given]
      by_cases hall : p = "all"
      · simp [hall]
      · simp [hall, and_assoc, and_comm]
  have hred : IsReduction (GivenEdge deps) (Edge out) := by
    rw [hedge]
    apply isReduction_pruneOn (acyclic_given hd)
    · exact fun p ↦ (finite_edge deps p).subset fun d h ↦ h.1
    · intro p d h
      rw [Finset.mem_toList, Finmap.mem_keys]
      exact h.1.mem
  refine ⟨out, ?_, hred, fun s hs ↦ hs.unique (acyclic_given hd) hred, ?_, ?_⟩
  · intro keys keys' depth hk hk' hdepth
    obtain ⟨out', hout', hlook'⟩ := removeExtraDeps_lookup hd hnd hk hk' hdepth
    rw [hout', Finmap.ext_lookup fun p ↦ (hlook' p).trans (hlook p).symm]
  · intro p d h
    rw [hedge] at h
    exact h.1
  · intro p l hl
    rw [hlook p, Option.map_eq_some_iff] at hl
    obtain ⟨l', hl', rfl⟩ := hl
    refine ⟨l', hl', List.filter_sublist.trans ?_⟩
    unfold given
    split
    · exact .refl _
    · exact List.filter_sublist

/-- A package whose dependency on `zlib` is covered by its dependency on `openssl`. -/
def curlDeps : Deps :=
  [⟨"libcurl", ["openssl", "zlib", "toolchain"]⟩, ⟨"openssl", ["zlib"]⟩].toFinmap

private theorem curlDeps_edge {p d : String} (h : Edge curlDeps p d) :
    (p = "libcurl" ∧ d ∈ ["openssl", "zlib", "toolchain"]) ∨ (p = "openssl" ∧ d = "zlib") := by
  obtain ⟨l, hl, hd⟩ := h
  rw [curlDeps, Finmap.dlookup_list_toFinmap] at hl
  by_cases hc : p = "libcurl"
  · subst hc
    rw [List.dlookup_cons_eq] at hl
    obtain rfl := Option.some.inj hl
    exact .inl ⟨rfl, hd⟩
  · by_cases ho : p = "openssl"
    · subst ho
      rw [List.dlookup_cons_ne _ _ hc, List.dlookup_cons_eq] at hl
      obtain rfl := Option.some.inj hl
      exact .inr ⟨rfl, List.mem_singleton.mp hd⟩
    · rw [List.dlookup_cons_ne _ _ hc, List.dlookup_cons_ne _ _ ho] at hl
      cases hl

/-- The reduction of a small dictionary, in whatever order it is visited. -/
theorem removeExtraDeps_isReduction_curl :
    ∃ out : Deps,
      (∀ keys keys' depth, Visits keys curlDeps → Visits keys' curlDeps →
        curlDeps.keys.card < depth →
        removeExtraDeps false depth keys keys' curlDeps = some out) ∧
      IsReduction (GivenEdge curlDeps) (Edge out) ∧
      (∀ s, IsReduction (GivenEdge curlDeps) s → s = Edge out) ∧
      (∀ p d, Edge out p d → GivenEdge curlDeps p d) ∧
      ∀ p l, out.lookup p = some l → ∃ l', curlDeps.lookup p = some l' ∧ l.Sublist l' := by
  apply removeExtraDeps_isReduction
  · -- `libcurl` above `openssl` above everything else
    let rank (p : String) : Nat := if p = "libcurl" then 2 else if p = "openssl" then 1 else 0
    apply Acyclic.of_rank rank
    intro p d h
    rcases curlDeps_edge h with ⟨rfl, hd⟩ | ⟨rfl, rfl⟩
    · simp only [List.mem_cons, List.not_mem_nil, or_false] at hd
      rcases hd with rfl | rfl | rfl <;> decide
    · decide
  · intro p l hl
    rw [curlDeps, Finmap.dlookup_list_toFinmap] at hl
    have hmem := List.of_mem_dlookup hl
    simp only [List.mem_cons, List.not_mem_nil, or_false, Sigma.mk.injEq, heq_eq_eq] at hmem
    rcases hmem with ⟨-, rfl⟩ | ⟨-, rfl⟩ <;> decide

example : removeExtraDeps false 3 ["openssl", "libcurl"] ["libcurl", "openssl"] curlDeps =
    some ([⟨"libcurl", ["openssl"]⟩, ⟨"openssl", ["zlib"]⟩].toFinmap) := by decide

end MotionPie.Support.GraphDepends
