import MotionPie.Graph.Route
import MotionPie.Support.GraphDepends

/-!
# The depth limit of the package graph

`print_pkg_deps` of `support/scripts/graph-depends`. It walks the dictionary and prints a package
when it first comes to it; how far it goes on from there depends on how deep it was then. So a
package at the limit is not expanded, even if a shorter way leads to it as well.
-/

namespace MotionPie.Support.GraphDepends

open MotionPie.Graph

/-! ### print_pkg_deps -/

/-- What the script knows when it prints the graph. `fnmatch` is Python's, and is asked only for the
patterns of the two lists. -/
structure Printing where
  modePkg : Bool
  rootpkg : String
  rootColour : String
  targetColour : String
  hostColour : String
  maxDepth : Int
  stopList : List String
  excludeList : List String
  fnmatch : String → String → Bool
  dictDeps : Deps
  dictVersion : String → Option String

/-- What is printed: the attributes of a package, or an edge. -/
inductive Line
  | attrs (pkg : String)
  | edge (pkg d : String)
  deriving DecidableEq

/-- `done_deps`, and what has been printed. -/
structure Printed where
  doneDeps : List String
  lines : List Line

/-- `pkg_node_name`, `support/scripts/graph-depends:202-203`. -/
def pkgNodeName (pkg : String) : String := String.ofList (pkg.toList.filter (· ≠ '-'))

variable (g : Printing)

/-- The colour of a package, `support/scripts/graph-depends:301-309`. -/
def Printing.colour (pkg : String) : String :=
  if pkg = "all" || (g.modePkg && pkg = g.rootpkg) then g.rootColour
  else if pkg.startsWith "host" || pkg.startsWith "toolchain" || pkg.startsWith "rootfs" then
    g.hostColour
  else g.targetColour

/-- The text of what is printed, `support/scripts/graph-depends:310-315` and `:342`. -/
def Printing.text : Line → List String
  | .attrs pkg =>
    let name := pkgNodeName pkg
    let label := if pkg = "all" then "ALL" else pkg
    [if g.dictVersion pkg = some "virtual" then name ++ " [label = <<I>" ++ label ++ "</I>>]"
      else name ++ " [label = \"" ++ label ++ "\"]",
      name ++ " [color=" ++ g.colour pkg ++ ",style=filled]"]
  | .edge pkg d => [pkgNodeName pkg ++ " -> " ++ pkgNodeName d]

/-- Whether the walk stops at a package, `support/scripts/graph-depends:325-329`. -/
def Printing.stops (pkg : String) : Bool :=
  g.stopList.any (g.fnmatch pkg) ||
    (g.dictVersion pkg = some "virtual" && decide ("virtual" ∈ g.stopList))

/-- Whether a dependency is left out, `support/scripts/graph-depends:332-340`. -/
def Printing.excludes (d : String) : Bool :=
  g.excludeList.any fun p ↦ g.fnmatch d p ||
    (g.dictVersion d = some "virtual" && decide ("virtual" ∈ g.excludeList))

/-- `print_pkg_deps`, `support/scripts/graph-depends:318-343`, with at most `fuel` nested calls. -/
def printPkgDeps : Nat → Nat → String → Printed → Option Printed
  | 0, _, _, _ => none
  | fuel + 1, depth, pkg, s =>
    if pkg ∈ s.doneDeps then some s
    else
      let s : Printed := ⟨s.doneDeps ++ [pkg], s.lines ++ [.attrs pkg]⟩
      match g.dictDeps.lookup pkg with
      | none => some s
      | some ds =>
        if g.stops pkg then some s
        else if g.maxDepth = 0 ∨ depth < g.maxDepth then
          ds.foldlM (fun s d ↦
            if g.excludes d then some s
            else printPkgDeps fuel (depth + 1) d { s with lines := s.lines ++ [.edge pkg d] }) s
        else some s

/-- The output, `support/scripts/graph-depends:345-351`. -/
def printGraph (fuel : Nat) : Option (List String) :=
  (printPkgDeps g fuel 0 g.rootpkg ⟨[], []⟩).map fun s ↦
    "digraph G \x7b" :: s.lines.flatMap g.text ++ ["\x7d"]

/-- The packages that are printed. -/
def packages (lines : List Line) : List String :=
  lines.filterMap fun
    | .attrs pkg => some pkg
    | .edge _ _ => none

/-- The edges that are printed. -/
def edges (lines : List Line) : List (String × String) :=
  lines.filterMap fun
    | .attrs _ => none
    | .edge pkg d => some (pkg, d)

/-! ### The walk -/

/-- The dependencies in the dictionary. -/
def dependencies (deps : Deps) (pkg : String) : List String := (deps.lookup pkg).getD []

/-- The calls from a package that is met at some depth, with a limit of `limit` levels. -/
def descend (deps : Deps) (limit : Nat) (pkg : String) (depth : Nat) : List (String × Nat) :=
  if depth < limit then (dependencies deps pkg).map fun d ↦ (d, depth + 1) else []

/-- The edges from such a package. -/
def descendEdges (deps : Deps) (limit : Nat) (e : String × Nat) : List (String × String) :=
  (if e.2 < limit then dependencies deps e.1 else []).map fun d ↦ (e.1, d)

variable {g} {limit : Nat}

/-- The printing of a graph to `limit` levels, without patterns. -/
structure Printing.Limited (g : Printing) (limit : Nat) : Prop where
  depth : g.maxDepth = limit
  pos : 0 < limit
  stop : g.stopList = []
  exclude : g.excludeList = []

/-- What a run of calls has done: which calls met a package first, and what was printed. The edges
of `own` have been printed by the loop that makes the calls. -/
structure Trace (g : Printing) (limit : Nat) (s : Printed) (calls : List (String × Nat))
    (own : List (String × String)) (E : List (String × Nat)) (s' : Printed) : Prop where
  walk : Walk (descend g.dictDeps limit) {p | p ∈ s.doneDeps} calls E
  doneDeps : s'.doneDeps = s.doneDeps ++ E.map Prod.fst
  packages : packages s'.lines = packages s.lines ++ E.map Prod.fst
  edges : (edges s'.lines).Perm
    (edges s.lines ++ own ++ E.flatMap (descendEdges g.dictDeps limit))

/-- Without patterns the walk stops nowhere. -/
theorem Printing.Limited.stops (h : g.Limited limit) (pkg : String) : g.stops pkg = false := by
  simp [Printing.stops, h.stop]

/-- Without patterns nothing is left out. -/
theorem Printing.Limited.excludes (h : g.Limited limit) (d : String) : g.excludes d = false := by
  simp [Printing.excludes, h.exclude]

/-- The test of the depth. -/
theorem Printing.Limited.deep (h : g.Limited limit) (depth : Nat) :
    (g.maxDepth = 0 ∨ (depth : Int) < g.maxDepth) ↔ depth < limit := by
  have hpos := h.pos
  rw [h.depth]
  omega

/-- What is printed in two parts. -/
theorem packages_append (l l' : List Line) : packages (l ++ l') = packages l ++ packages l' :=
  List.filterMap_append

/-- What is printed in two parts. -/
theorem edges_append (l l' : List Line) : edges (l ++ l') = edges l ++ edges l' :=
  List.filterMap_append

/-- A loop over the dependencies of a package prints an edge and makes a call for each. -/
theorem trace_foldlM {pkg : String} {depth : Nat} {f : Printed → String → Option Printed}
    (hf : ∀ s d s', f s d = some s' → ∃ E, Trace g limit s [(d, depth)] [(pkg, d)] E s')
    {ds : List String} {s s' : Printed} (hrun : ds.foldlM f s = some s') :
    ∃ E, Trace g limit s (ds.map fun d ↦ (d, depth)) (ds.map fun d ↦ (pkg, d)) E s' := by
  induction ds generalizing s with
  | nil =>
    obtain rfl : s = s' := by simpa using hrun
    exact ⟨[], .nil _, by simp, by simp, by simp⟩
  | cons d ds ih =>
    rw [List.foldlM_cons, Option.bind_eq_bind, Option.bind_eq_some_iff] at hrun
    obtain ⟨s₁, hd, hds⟩ := hrun
    obtain ⟨E, hE⟩ := hf s d s₁ hd
    obtain ⟨E', hE'⟩ := ih hds
    have hdone : {p | p ∈ s₁.doneDeps} = {p | p ∈ s.doneDeps} ∪ met E := by
      ext p
      simp [hE.doneDeps, mem_met_iff]
    refine ⟨E ++ E', hE.walk.append (hdone ▸ hE'.walk), ?_, ?_, ?_⟩
    · rw [hE'.doneDeps, hE.doneDeps, List.map_append, List.append_assoc]
    · rw [hE'.packages, hE.packages, List.map_append, List.append_assoc]
    · refine hE'.edges.trans (((hE.edges.append_right _).append_right _).trans ?_)
      rw [List.perm_iff_count]
      intro e
      simp only [List.count_append, List.map_cons, List.count_cons, List.count_nil,
        List.flatMap_append]
      omega

/-- What a call prints. -/
theorem trace_printPkgDeps (hg : g.Limited limit) {fuel depth : Nat} {pkg : String}
    {s s' : Printed} (hrun : printPkgDeps g fuel depth pkg s = some s') :
    ∃ E, Trace g limit s [(pkg, depth)] [] E s' := by
  induction fuel generalizing depth pkg s s' with
  | zero => cases hrun
  | succ fuel ih =>
    have hdeep : (g.maxDepth = 0 ∨ (depth : Int) < g.maxDepth) ↔ depth < limit := hg.deep depth
    rw [printPkgDeps] at hrun
    by_cases hpkg : pkg ∈ s.doneDeps
    · rw [if_pos hpkg, Option.some.injEq] at hrun
      subst hrun
      exact ⟨[], .again hpkg (.nil _), by simp, by simp, by simp⟩
    · rw [if_neg hpkg] at hrun
      -- What the dependencies print behind the attributes of the package.
      suffices hbelow : ∃ E, Trace g limit ⟨s.doneDeps ++ [pkg], s.lines ++ [.attrs pkg]⟩
          (descend g.dictDeps limit pkg depth) (descendEdges g.dictDeps limit (pkg, depth)) E s' by
        obtain ⟨E, hE⟩ := hbelow
        have hinsert : {p | p ∈ s.doneDeps ++ [pkg]} = insert pkg {p | p ∈ s.doneDeps} := by
          ext p
          simp [or_comm]
        have hwalk := hE.walk
        rw [hinsert] at hwalk
        refine ⟨(pkg, depth) :: E ++ [], .first hpkg hwalk (.nil _), ?_, ?_, ?_⟩
        · simp [hE.doneDeps]
        · rw [hE.packages, packages_append]
          simp [packages]
        · refine hE.edges.trans ?_
          rw [edges_append]
          simp [edges]
      have hstop : dependencies g.dictDeps pkg = [] ∨ ¬ depth < limit →
          some (⟨s.doneDeps ++ [pkg], s.lines ++ [.attrs pkg]⟩ : Printed) = some s' →
          ∃ E, Trace g limit ⟨s.doneDeps ++ [pkg], s.lines ++ [.attrs pkg]⟩
            (descend g.dictDeps limit pkg depth)
            (descendEdges g.dictDeps limit (pkg, depth)) E s' := by
        intro hnone hsome
        obtain rfl := Option.some.inj hsome
        have hcalls : descend g.dictDeps limit pkg depth = [] ∧
            descendEdges g.dictDeps limit (pkg, depth) = [] := by
          unfold descend descendEdges
          rcases hnone with hnone | hnone <;> simp [hnone]
        rw [hcalls.1, hcalls.2]
        exact ⟨[], .nil _, by simp, by simp, by simp⟩
      cases hlookup : g.dictDeps.lookup pkg with
      | none =>
        rw [hlookup] at hrun
        exact hstop (.inl (by rw [dependencies, hlookup]; rfl)) hrun
      | some ds =>
        simp only [hlookup, hg.stops, hg.excludes, Bool.false_eq_true, if_false, hdeep] at hrun
        by_cases hdepth : depth < limit
        · rw [if_pos hdepth] at hrun
          have hds : dependencies g.dictDeps pkg = ds := by rw [dependencies, hlookup]; rfl
          rw [descend, descendEdges, if_pos hdepth, hds]
          simp only [hdepth, if_true]
          refine trace_foldlM (fun s d s' hd ↦ ?_) hrun
          obtain ⟨E, hE⟩ := ih hd
          refine ⟨E, hE.walk, hE.doneDeps, ?_, ?_⟩
          · rw [hE.packages, packages_append]
            simp [packages]
          · refine hE.edges.trans ?_
            rw [edges_append]
            simp [edges]
        · rw [if_neg hdepth] at hrun
          exact hstop (.inr hdepth) hrun

/-- The recursion is no deeper than the limit. -/
theorem printPkgDeps_total (hg : g.Limited limit) {fuel depth : Nat} (hdepth : depth ≤ limit)
    (hfuel : limit < fuel + depth) (pkg : String) (s : Printed) :
    ∃ s', printPkgDeps g fuel depth pkg s = some s' := by
  induction fuel generalizing depth pkg s with
  | zero => omega
  | succ fuel ih =>
    have hdeep : (g.maxDepth = 0 ∨ (depth : Int) < g.maxDepth) ↔ depth < limit := hg.deep depth
    rw [printPkgDeps]
    by_cases hpkg : pkg ∈ s.doneDeps
    · exact ⟨s, if_pos hpkg⟩
    · simp only [if_neg hpkg]
      cases g.dictDeps.lookup pkg with
      | none => exact ⟨_, rfl⟩
      | some ds =>
        simp only [hg.stops, hg.excludes, Bool.false_eq_true, if_false, hdeep]
        by_cases hless : depth < limit
        · rw [if_pos hless]
          have hloop : ∀ (ds : List String) (s : Printed), ∃ s', ds.foldlM (fun s d ↦
              printPkgDeps g fuel (depth + 1) d { s with lines := s.lines ++ [.edge pkg d] }) s =
                some s' := by
            intro ds
            induction ds with
            | nil => exact fun s ↦ ⟨s, rfl⟩
            | cons d ds ihds =>
              intro s
              obtain ⟨s₁, hs₁⟩ := ih (by omega : depth + 1 ≤ limit) (by omega) d
                { s with lines := s.lines ++ [.edge pkg d] }
              obtain ⟨s₂, hs₂⟩ := ihds s₁
              exact ⟨s₂, by rw [List.foldlM_cons, hs₁]; exact hs₂⟩
          exact hloop ds _
        · exact ⟨_, if_neg hless⟩

/-! ### The distance from the root -/

variable {deps : Deps} {root p d : String} {k : Nat} {E : List (String × Nat)}

/-- `k` edges lead from the root to a package. -/
inductive Leads (deps : Deps) (root : String) : Nat → String → Prop
  | root : Leads deps root 0 root
  | edge {k : Nat} {p d : String} (hp : Leads deps root k p) (hd : Edge deps p d) :
      Leads deps root (k + 1) d

/-- The distance of a package from the root is at most `n`. -/
def Within (deps : Deps) (root : String) (n : Nat) (p : String) : Prop :=
  ∃ k ≤ n, Leads deps root k p

/-- The distance of a package from the root is less than `n`. -/
def Nearer (deps : Deps) (root : String) (n : Nat) (p : String) : Prop :=
  ∃ k < n, Leads deps root k p

open Classical in
/-- The ways on from a package that is nearer than the limit, with the number of edges. -/
noncomputable def pursue (deps : Deps) (limit : Nat) (root p : String) (k : Nat) :
    List (String × Nat) :=
  if Nearer deps root limit p then (dependencies deps p).map fun d ↦ (d, k + 1) else []

/-- In the order of the dependency lists, the first way from the root to a package through nearer
packages has `k` edges. -/
def FirstAt (deps : Deps) (limit : Nat) (root p : String) (k : Nat) : Prop :=
  ∃ is, FirstRoute (pursue deps limit root) ∅ [(root, 0)] is (p, k)

open Classical in
/-- What is printed is the part of the graph that the limit describes: each package in reach once,
and each edge that leaves a nearer one as often as the dictionary has it. -/
structure LimitedTo (deps : Deps) (root : String) (limit : Nat) (lines : List Line) : Prop where
  nodup : (packages lines).Nodup
  packages : ∀ p, p ∈ packages lines ↔ Within deps root limit p
  edges : ∀ p d, (edges lines).count (p, d) =
    if Nearer deps root limit p then (dependencies deps p).count d else 0

/-- A dependency in the dictionary is an edge. -/
theorem mem_dependencies : d ∈ dependencies deps p ↔ Edge deps p d := by
  unfold dependencies
  cases h : deps.lookup p with
  | none => simp [edge_of_lookup_none h]
  | some l => simp [edge_of_lookup_some h]

/-- The edges of a package that was met at depth `k`. -/
theorem count_descendEdges (hnodup : (E.map Prod.fst).Nodup) (hk : (p, k) ∈ E) (d : String) :
    (E.flatMap (descendEdges deps limit)).count (p, d) =
      if k < limit then (dependencies deps p).count d else 0 := by
  refine (count_edges_of_mem hnodup hk d).trans ?_
  by_cases hless : k < limit
  · simp [hless]
  · simp [hless]

/-- A package is met at most at the limit, at the end of a path. -/
theorem leads_of_walk (hwalk : Walk (descend deps limit) ∅ [(root, 0)] E) (hk : (p, k) ∈ E) :
    Leads deps root k p ∧ k ≤ limit := by
  refine hwalk.induct (fun p k ↦ Leads deps root k p ∧ k ≤ limit) ?_ ?_ _ hk
  · intro e he
    obtain rfl := List.mem_singleton.mp he
    exact ⟨.root, Nat.zero_le _⟩
  · rintro p k ⟨hp, -⟩ e he
    unfold descend at he
    split at he
    · next hless =>
      obtain ⟨d, hd, rfl⟩ := List.mem_map.mp he
      exact ⟨.edge hp (mem_dependencies.mp hd), hless⟩
    · cases he

/-- A way has as many edges as it says. -/
theorem leads_of_pursue (hwalk : Walk (pursue deps limit root) ∅ [(root, 0)] E) (hk : (p, k) ∈ E) :
    Leads deps root k p := by
  refine hwalk.induct (fun p k ↦ Leads deps root k p) ?_ ?_ _ hk
  · intro e he
    obtain rfl := List.mem_singleton.mp he
    exact .root
  · intro p k hp e he
    unfold pursue at he
    split at he
    · obtain ⟨d, hd, rfl⟩ := List.mem_map.mp he
      exact .edge hp (mem_dependencies.mp hd)
    · cases he

/-- The ways end: the dictionary has finitely many packages. -/
theorem exists_walk_pursue (deps : Deps) (limit : Nat) (root : String) :
    ∃ E, Walk (pursue deps limit root) ∅ [(root, 0)] E := by
  refine Walk.exists_of_finite (U := insert root
    (deps.keys.biUnion fun p ↦ (dependencies deps p).toFinset)) ?_ ?_
  · intro p _ k e he
    unfold pursue at he
    split at he
    · obtain ⟨d, hd, rfl⟩ := List.mem_map.mp he
      have hp : p ∈ deps.keys := Finmap.mem_keys.mpr (mem_dependencies.mp hd).mem
      simp only [Finset.mem_insert, Finset.mem_biUnion, List.mem_toFinset]
      exact .inr ⟨p, hp, hd⟩
    · cases he
  · intro e he
    obtain rfl := List.mem_singleton.mp he
    exact Finset.mem_insert_self _ _

/-- A package in reach is met, if the nearer ones are expanded. -/
theorem met_of_leads (hwalk : Walk (descend deps limit) ∅ [(root, 0)] E)
    (hfirst : ∀ p k, (p, k) ∈ E → Nearer deps root limit p → dependencies deps p ≠ [] → k < limit)
    (hp : Leads deps root k p) (hk : k ≤ limit) : p ∈ met E := by
  have hclosed : ∀ e ∈ made (descend deps limit) [(root, 0)] E, e.1 ∈ met E := by
    intro e he
    simpa using hwalk.closed e he
  induction hp with
  | root => exact hclosed (root, 0) (by simp [made])
  | @edge k p d hp hd ih =>
    obtain ⟨l, hl⟩ := ih (by omega)
    have hmem : d ∈ dependencies deps p := mem_dependencies.mpr hd
    have hless : l < limit := hfirst p l hl ⟨k, hk, hp⟩ (List.ne_nil_of_mem hmem)
    apply hclosed (d, l + 1)
    apply List.mem_append_right
    rw [List.mem_flatMap]
    refine ⟨(p, l), hl, ?_⟩
    rw [descend, if_pos hless]
    exact List.mem_map_of_mem hmem

/-- A walk that expands every package that is nearer than the limit takes the first ways, and the
other way round. -/
theorem expands_iff (hwalk : Walk (descend deps limit) ∅ [(root, 0)] E) :
    (∀ p k, (p, k) ∈ E → Nearer deps root limit p → dependencies deps p ≠ [] → k < limit) ↔
      ∀ p k, FirstAt deps limit root p k → Nearer deps root limit p → dependencies deps p ≠ [] →
        k < limit := by
  have hnext : SameNodes (pursue deps limit root) := by
    intro p k k'
    unfold pursue
    split
    · simp only [List.map_map, Function.comp_def]
    · rfl
  have hagree : ∀ p k, Leads deps root k p →
      (Nearer deps root limit p → dependencies deps p ≠ [] → k < limit) →
      descend deps limit p k = pursue deps limit root p k := by
    intro p k hleads hfirst
    unfold descend pursue
    by_cases hless : k < limit
    · rw [if_pos hless, if_pos ⟨k, hless, hleads⟩]
    · rw [if_neg hless]
      split
      · next hnear =>
        have hnil : dependencies deps p = [] := by
          by_contra hne
          exact hless (hfirst hnear hne)
        rw [hnil, List.map_nil]
      · rfl
  constructor
  · intro hall p k hfirst
    have hwalk' : Walk (pursue deps limit root) ∅ [(root, 0)] E :=
      hwalk.congr fun e he ↦ hagree e.1 e.2 (leads_of_walk hwalk he).1 (hall e.1 e.2 he)
    exact hall p k ((hwalk'.mem_iff_firstRoute hnext).mpr hfirst)
  · intro hall
    obtain ⟨E', hE'⟩ := exists_walk_pursue deps limit root
    have hwalk' : Walk (descend deps limit) ∅ [(root, 0)] E' := by
      refine hE'.congr fun e he ↦ (hagree e.1 e.2 (leads_of_pursue hE' he) ?_).symm
      exact hall e.1 e.2 ((hE'.mem_iff_firstRoute hnext).mp he)
    obtain rfl := hwalk.unique hwalk'
    exact fun p k hk ↦ hall p k ((hE'.mem_iff_firstRoute hnext).mp hk)

/-- The printed part of the graph is the one that the limit describes exactly when the walk comes
to every package with dependencies that is nearer than the limit at such a depth first. -/
theorem limitedTo_iff {lines : List Line}
    (hwalk : Walk (descend deps limit) ∅ [(root, 0)] E)
    (hpackages : packages lines = E.map Prod.fst)
    (hedges : (edges lines).Perm (E.flatMap (descendEdges deps limit))) :
    LimitedTo deps root limit lines ↔ ∀ p k, (p, k) ∈ E →
      Nearer deps root limit p → dependencies deps p ≠ [] → k < limit := by
  constructor
  · intro hlimited p k hk hnear hne
    obtain ⟨d, hd⟩ := List.exists_mem_of_ne_nil _ hne
    have hcount := hlimited.edges p d
    rw [if_pos hnear, hedges.count_eq, count_descendEdges hwalk.nodup hk] at hcount
    have hpos : 0 < (dependencies deps p).count d := List.count_pos_iff.mpr hd
    by_contra hless
    rw [if_neg hless] at hcount
    omega
  · intro hall
    constructor
    · exact hpackages ▸ hwalk.nodup
    · intro p
      rw [hpackages, ← mem_met_iff]
      constructor
      · rintro ⟨k, hk⟩
        obtain ⟨hleads, hle⟩ := leads_of_walk hwalk hk
        exact ⟨k, hle, hleads⟩
      · rintro ⟨k, hle, hleads⟩
        exact met_of_leads hwalk hall hleads hle
    · intro p d
      rw [hedges.count_eq]
      by_cases hnear : Nearer deps root limit p
      · obtain ⟨j, hj, hleads⟩ := hnear
        obtain ⟨k, hk⟩ := met_of_leads hwalk hall hleads hj.le
        rw [count_descendEdges hwalk.nodup hk,
          if_pos (c := Nearer deps root limit p) ⟨j, hj, hleads⟩]
        by_cases hne : dependencies deps p = []
        · simp [hne]
        · rw [if_pos (hall p k hk ⟨j, hj, hleads⟩ hne)]
      · rw [if_neg hnear]
        by_cases hp : p ∈ met E
        · obtain ⟨k, hk⟩ := hp
          rw [count_descendEdges hwalk.nodup hk, if_neg]
          exact fun hless ↦ hnear ⟨k, hless, (leads_of_walk hwalk hk).1⟩
        · exact count_edges_of_notMem (fun hmem ↦ hp (mem_met_iff.mpr hmem)) d

/-- `print_pkg_deps` with a depth limit and without patterns: it ends, and prints the part of the
graph that the limit describes exactly when the first way to every package with dependencies that is
nearer than the limit is shorter than the limit, too. -/
theorem printPkgDeps_limitedTo_iff (g : Printing) (limit : Nat) (hg : g.Limited limit) (fuel : Nat)
    (hfuel : limit < fuel) :
    ∃ s, printPkgDeps g fuel 0 g.rootpkg ⟨[], []⟩ = some s ∧
      (LimitedTo g.dictDeps g.rootpkg limit s.lines ↔
        ∀ p k, FirstAt g.dictDeps limit g.rootpkg p k → Nearer g.dictDeps g.rootpkg limit p →
          dependencies g.dictDeps p ≠ [] → k < limit) := by
  obtain ⟨s, hs⟩ := printPkgDeps_total hg (Nat.zero_le _) hfuel g.rootpkg ⟨[], []⟩
  obtain ⟨E, hE⟩ := trace_printPkgDeps hg hs
  have hwalk : Walk (descend g.dictDeps limit) ∅ [(g.rootpkg, 0)] E := by
    simpa using hE.walk
  refine ⟨s, hs, (limitedTo_iff hwalk ?_ ?_).trans (expands_iff hwalk)⟩
  · simpa [packages] using hE.packages
  · simpa [edges] using hE.edges

/-- `motion` needs `libjpeg` through `ffmpeg` and `opencv`, and through `python`. -/
def motionDeps : Deps :=
  [⟨"motion", ["ffmpeg", "python"]⟩, ⟨"ffmpeg", ["opencv"]⟩, ⟨"opencv", ["libjpeg"]⟩,
    ⟨"python", ["libjpeg"]⟩, ⟨"libjpeg", ["zlib"]⟩].toFinmap

/-- The graph of `motion`, to three levels. -/
def motionGraph : Printing where
  modePkg := true
  rootpkg := "motion"
  rootColour := "lightblue"
  targetColour := "grey"
  hostColour := "gainsboro"
  maxDepth := 3
  stopList := []
  excludeList := []
  fnmatch pkg p := pkg = p
  dictDeps := motionDeps
  dictVersion _ := some "1.0"

/-- Printing the graph of `motion` ends. -/
theorem printPkgDeps_limitedTo_iff_motion :
    ∃ s, printPkgDeps motionGraph 4 0 "motion" ⟨[], []⟩ = some s ∧
      (LimitedTo motionDeps "motion" 3 s.lines ↔
        ∀ p k, FirstAt motionDeps 3 "motion" p k → Nearer motionDeps "motion" 3 p →
          dependencies motionDeps p ≠ [] → k < 3) :=
  printPkgDeps_limitedTo_iff motionGraph 3 ⟨rfl, by decide, rfl, rfl⟩ 4 (by decide)

/-- `zlib` is three edges away from `motion` through `python`, but `libjpeg` is met at the limit
first, so `zlib` is not printed. -/
theorem motion_not_limitedTo :
    ∃ s, printPkgDeps motionGraph 4 0 "motion" ⟨[], []⟩ = some s ∧
      Within motionDeps "motion" 3 "zlib" ∧ "zlib" ∉ packages s.lines ∧
      ¬ LimitedTo motionDeps "motion" 3 s.lines := by
  have hrun : (printPkgDeps motionGraph 4 0 "motion" ⟨[], []⟩).any (fun s ↦
      decide ("zlib" ∉ packages s.lines)) = true := by decide
  obtain ⟨s, hs, hzlib⟩ := (Option.any_eq_true _ _).mp hrun
  have hnot : "zlib" ∉ packages s.lines := by simpa using hzlib
  have hwithin : Within motionDeps "motion" 3 "zlib" := by
    have hedge : ∀ p d, d ∈ dependencies motionDeps p → Edge motionDeps p d :=
      fun p d ↦ mem_dependencies.mp
    exact ⟨3, le_rfl, .edge (.edge (.edge .root (hedge "motion" "python" (by decide)))
      (hedge "python" "libjpeg" (by decide))) (hedge "libjpeg" "zlib" (by decide))⟩
  exact ⟨s, hs, hwithin, hnot, fun hlimited ↦ hnot ((hlimited.packages _).mpr hwithin)⟩

end MotionPie.Support.GraphDepends
