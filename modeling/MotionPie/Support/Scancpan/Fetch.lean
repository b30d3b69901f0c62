import Mathlib.Data.List.Dedup
import MotionPie.Graph.Walk
import MotionPie.Shell.Text

/-!
# Fetching CPAN distributions

`fetch` of `support/scripts/scancpan` and the loop that calls it for the distributions of the
command line. A distribution is asked of the server once; the call that does it also fetches the
dependencies, the build ones for the host and the runtime ones for whatever it was called for
itself. CPAN is what the script reads of it, perl's order of hash keys included.
-/

namespace MotionPie.Support.Scancpan

open Base MotionPie.Graph Relation Shell

/-- The name of a distribution. -/
abbrev Name := Bytes

/-- An entry of `dependency` in a release. -/
structure Dependency where
  module : Bytes
  phase : Bytes
  relationship : Bytes
  deriving DecidableEq

/-- What `fetch` reads of a release. -/
structure Release where
  author : Bytes
  version : Bytes
  dependency : List Dependency
  deriving DecidableEq

/-- The options, `support/scripts/scancpan:487-497`. -/
structure Options where
  target : Bool
  host : Bool
  recommend : Bool
  test : Bool

/-- What the server and perl answer: the release of a distribution, the `MANIFEST` of an author's
distribution and version, the distribution of a module, whether a module belongs to perl, and the
order in which the keys of `%build` or `%runtime` come out for the names that were put in. -/
structure Cpan where
  release : Name → Release
  manifest : Bytes → Name → Bytes → Bytes
  distribution : Bytes → Name
  isCore : Bytes → Bool
  buildKeys : Name → List Name → List Name
  runtimeKeys : Name → List Name → List Name
  buildKeys_perm : ∀ n l, (buildKeys n l).Perm l.dedup
  runtimeKeys_perm : ∀ n l, (runtimeKeys n l).Perm l.dedup

/-- The hashes of the script, `support/scripts/scancpan:502-508`. -/
structure State where
  dist : Name → Option Release
  needTarget : Name → Bool
  needHost : Name → Bool
  needDlopen : Name → Bool
  depsBuild : Name → List Name
  depsRuntime : Name → List Name
  licenseFiles : Name → List Bytes

/-- The hashes before the first call. -/
def State.initial : State where
  dist _ := none
  needTarget _ := false
  needHost _ := false
  needDlopen _ := false
  depsBuild _ := []
  depsRuntime _ := []
  licenseFiles _ := []

/-! ### fetch -/

/-- `is_xs`, `support/scripts/scancpan:532-538`. -/
def isXs (manifest : Bytes) : Bool :=
  [str "swg", str "xs", str "c", str "h", str "i"].any fun suffix ↦
    contains (46 :: suffix ++ [newline]) manifest

/-- A byte in upper case. -/
def upper (b : UInt8) : UInt8 := if 97 ≤ b ∧ b ≤ 122 then b - 32 else b

/-- `find_license_files`, `support/scripts/scancpan:540-548`. -/
def findLicenseFiles (manifest : Bytes) : List Bytes :=
  (splitLines manifest).filter fun line ↦ decide (47 ∉ line) &&
    [str "ARTISTIC", str "COPYING", str "COPYRIGHT", str "LICENSE"].any fun word ↦
      contains word (line.map upper)

variable (c : Cpan) (o : Options)

/-- Whether a dependency is left out, `support/scripts/scancpan:569-578`. -/
def skips (d : Dependency) : Bool :=
  d.module = str "perl" || (str "Alien").isPrefixOf d.module || (str "Win32").isPrefixOf d.module ||
    (!o.test && (str "Test").isPrefixOf d.module) || c.isCore d.module ||
    d.phase = str "develop" || (!o.test && d.phase = str "test") ||
    (!o.recommend && d.relationship ≠ str "requires")

/-- The keys of `%build` behind the loop, `support/scripts/scancpan:561-588`. A dependency on
`Module::Build` counts also when it is left out. -/
def Cpan.build (name : Name) : List Name :=
  let deps := (c.release name).dependency
  c.buildKeys name
    (((deps.filter fun d ↦ !skips c o d && d.phase ≠ str "runtime").map fun d ↦
        c.distribution d.module) ++
      if deps.any (·.module = str "Module::Build") then [str "Module-Build"] else [])

/-- The keys of `%runtime` behind the loop. -/
def Cpan.runtime (name : Name) : List Name :=
  c.runtimeKeys name
    (((c.release name).dependency.filter fun d ↦ !skips c o d && d.phase = str "runtime").map
      fun d ↦ c.distribution d.module)

/-- The marks, `support/scripts/scancpan:552-553`. -/
def State.mark (s : State) (name : Name) (needTarget needHost : Bool) : State where
  __ := s
  needTarget := if needTarget then Function.update s.needTarget name true else s.needTarget
  needHost := if needHost then Function.update s.needHost name true else s.needHost

/-- What is kept of a release, `support/scripts/scancpan:556-589`. -/
def State.record (s : State) (name : Name) : State where
  __ := s
  dist := Function.update s.dist name (some (c.release name))
  needDlopen := Function.update s.needDlopen name
    (isXs (c.manifest (c.release name).author name (c.release name).version))
  licenseFiles := Function.update s.licenseFiles name
    (findLicenseFiles (c.manifest (c.release name).author name (c.release name).version))
  depsBuild := Function.update s.depsBuild name (c.build o name)
  depsRuntime := Function.update s.depsRuntime name (c.runtime o name)

/-- `$need_dlopen{$name} ||= $need_dlopen{$distname}`. -/
def State.inherit (s : State) (name distname : Name) : State where
  __ := s
  needDlopen := Function.update s.needDlopen name (s.needDlopen name || s.needDlopen distname)

/-- `fetch`, `support/scripts/scancpan:550-599`, with at most `fuel` nested calls. -/
def fetch : Nat → State → Name → Bool → Bool → Option State
  | 0, _, _, _, _ => none
  | fuel + 1, s, name, needTarget, needHost =>
    let s := s.mark name needTarget needHost
    if (s.dist name).isSome then some s
    else do
      let s := s.record c o name
      let s ← (s.depsBuild name).foldlM (fun s distname ↦ fetch fuel s distname false true) s
      (s.depsRuntime name).foldlM (fun s distname ↦
        (fetch fuel s distname needTarget needHost).map fun s ↦ s.inherit name distname) s

/-- The loop over the command line, `support/scripts/scancpan:601-604`. -/
def fetchAll (fuel : Nat) (argv : List Name) : Option State :=
  argv.foldlM (fun s distname ↦ fetch c o fuel s distname o.target o.host) .initial

/-- What is needed on the host or on the target is needed there with its dependencies. -/
structure State.Closed (s : State) : Prop where
  hostBuild : ∀ n, s.needHost n = true → ∀ d ∈ s.depsBuild n, s.needHost d = true
  hostRuntime : ∀ n, s.needHost n = true → ∀ d ∈ s.depsRuntime n, s.needHost d = true
  targetBuild : ∀ n, s.needTarget n = true → ∀ d ∈ s.depsBuild n, s.needHost d = true
  targetRuntime : ∀ n, s.needTarget n = true → ∀ d ∈ s.depsRuntime n, s.needTarget d = true

/-! ### The walk -/

/-- What a call passes to the dependencies: the build ones come first. -/
def Cpan.next (name : Name) (flags : Bool × Bool) : List (Name × Bool × Bool) :=
  (c.build o name).map (fun d ↦ (d, false, true)) ++ (c.runtime o name).map fun d ↦ (d, flags)

/-- The distributions that have been fetched. -/
def State.fetched (s : State) : Set Name := {n | (s.dist n).isSome = true}

/-- What a run of calls has done: which calls met a distribution first, and what follows for the
hashes. -/
structure Outcome (s : State) (calls E : List (Name × Bool × Bool)) (s' : State) : Prop where
  walk : Walk (c.next o) s.fetched calls E
  fetched : s'.fetched = s.fetched ∪ met E
  target : ∀ n, s'.needTarget n = true ↔
    s.needTarget n = true ∨ ∃ h, (n, true, h) ∈ made (c.next o) calls E
  host : ∀ n, s'.needHost n = true ↔
    s.needHost n = true ∨ ∃ t, (n, t, true) ∈ made (c.next o) calls E
  known : ∀ n ∈ met E, s'.depsBuild n = c.build o n ∧ s'.depsRuntime n = c.runtime o n
  kept : ∀ n ∉ met E, s'.depsBuild n = s.depsBuild n ∧ s'.depsRuntime n = s.depsRuntime n

variable {c o} {s s₁ s₂ : State} {calls calls' E E' : List (Name × Bool × Bool)}

/-- No call. -/
theorem Outcome.nil (s : State) : Outcome c o s [] [] s where
  walk := .nil _
  fetched := by simp
  target n := by simp [made]
  host n := by simp [made]
  known n hn := by simp at hn
  kept n _ := ⟨rfl, rfl⟩

/-- Calls in two parts. -/
theorem Outcome.append (h : Outcome c o s calls E s₁) (h' : Outcome c o s₁ calls' E' s₂) :
    Outcome c o s (calls ++ calls') (E ++ E') s₂ where
  walk := h.walk.append (h.fetched ▸ h'.walk)
  fetched := by rw [h'.fetched, h.fetched, met_append, Set.union_assoc]
  target n := by
    simp only [h'.target n, h.target n, mem_made_append, exists_or, or_assoc]
  host n := by
    simp only [h'.host n, h.host n, mem_made_append, exists_or, or_assoc]
  known n hn := by
    by_cases hlast : n ∈ met E'
    · exact h'.known n hlast
    · rw [met_append] at hn
      obtain ⟨hbuild, hruntime⟩ := h'.kept n hlast
      rw [hbuild, hruntime]
      exact h.known n (hn.resolve_right hlast)
  kept n hn := by
    rw [met_append, Set.mem_union, not_or] at hn
    obtain ⟨hbuild, hruntime⟩ := h'.kept n hn.2
    rw [hbuild, hruntime]
    exact h.kept n hn.1

/-- A loop over distributions. -/
theorem outcome_foldlM {f : State → Name → Option State} {flags : Bool × Bool}
    (hf : ∀ s d s', f s d = some s' → ∃ E, Outcome c o s [(d, flags)] E s') {ds : List Name}
    (h : ds.foldlM f s = some s₁) : ∃ E, Outcome c o s (ds.map fun d ↦ (d, flags)) E s₁ := by
  induction ds generalizing s with
  | nil =>
    obtain rfl : s = s₁ := by simpa using h
    exact ⟨[], .nil s⟩
  | cons d ds ih =>
    rw [List.foldlM_cons, Option.bind_eq_bind, Option.bind_eq_some_iff] at h
    obtain ⟨s₂, hd, hds⟩ := h
    obtain ⟨E, hE⟩ := hf s d s₂ hd
    obtain ⟨E', hE'⟩ := ih hds
    exact ⟨E ++ E', hE.append hE'⟩

/-- The marks do not touch the other hashes. -/
theorem fetched_mark (name : Name) (t h : Bool) : (s.mark name t h).fetched = s.fetched := rfl

/-- A mark for the target. -/
theorem needTarget_mark {name : Name} {t h : Bool} (n : Name) :
    (s.mark name t h).needTarget n = true ↔ s.needTarget n = true ∨ (n = name ∧ t = true) := by
  cases t with
  | false => simp [State.mark]
  | true =>
    by_cases hn : n = name
    · simp [State.mark, hn]
    · simp [State.mark, hn]

/-- A mark for the host. -/
theorem needHost_mark {name : Name} {t h : Bool} (n : Name) :
    (s.mark name t h).needHost n = true ↔ s.needHost n = true ∨ (n = name ∧ h = true) := by
  cases h with
  | false => simp [State.mark]
  | true =>
    by_cases hn : n = name
    · simp [State.mark, hn]
    · simp [State.mark, hn]

/-- Recording a release fetches it. -/
theorem fetched_record (name : Name) : (s.record c o name).fetched = insert name s.fetched := by
  ext n
  by_cases hn : n = name
  · simp [State.fetched, State.record, hn]
  · simp [State.fetched, State.record, hn]

/-! ### What fetch does -/

-- A call on a distribution that was fetched before.
private theorem outcome_again {name : Name} {t h : Bool} (hname : name ∈ s.fetched) :
    Outcome c o s [(name, t, h)] [] (s.mark name t h) where
  walk := .again hname (.nil _)
  fetched := by simp [fetched_mark]
  target n := by
    rw [needTarget_mark]
    constructor
    · rintro (hn | ⟨rfl, rfl⟩)
      · exact .inl hn
      · exact .inr ⟨h, by simp [made]⟩
    · rintro (hn | ⟨h', hmade⟩)
      · exact .inl hn
      · obtain ⟨hn, ht, -⟩ : n = name ∧ true = t ∧ h' = h := by simpa [made] using hmade
        exact .inr ⟨hn, ht.symm⟩
  host n := by
    rw [needHost_mark]
    constructor
    · rintro (hn | ⟨rfl, rfl⟩)
      · exact .inl hn
      · exact .inr ⟨t, by simp [made]⟩
    · rintro (hn | ⟨t', hmade⟩)
      · exact .inl hn
      · obtain ⟨hn, -, hh⟩ : n = name ∧ t' = t ∧ true = h := by simpa [made] using hmade
        exact .inr ⟨hn, hh.symm⟩
  known n hn := by simp at hn
  kept n _ := ⟨rfl, rfl⟩

-- A call on a distribution that was not, from what the calls on its dependencies do.
private theorem outcome_first {name : Name} {t h : Bool} (hname : name ∉ s.fetched)
    (hnext : Outcome c o ((s.mark name t h).record c o name) (c.next o name (t, h)) E s₁) :
    Outcome c o s [(name, t, h)] ((name, t, h) :: E ++ []) s₁ where
  walk := by
    have hwalk := hnext.walk
    rw [fetched_record, fetched_mark] at hwalk
    exact .first hname hwalk (.nil _)
  fetched := by
    rw [hnext.fetched, fetched_record, fetched_mark, List.append_nil, met_cons, Set.insert_union,
      Set.union_insert]
  target n := by
    have hrecord : ((s.mark name t h).record c o name).needTarget n =
        (s.mark name t h).needTarget n := rfl
    rw [hnext.target n, hrecord, needTarget_mark]
    simp only [mem_made_first, Prod.mk.injEq]
    constructor
    · rintro ((hn | ⟨rfl, rfl⟩) | ⟨h', hmade⟩)
      · exact .inl hn
      · exact .inr ⟨h, .inl ⟨rfl, rfl, rfl⟩⟩
      · exact .inr ⟨h', .inr (.inl hmade)⟩
    · rintro (hn | ⟨h', ⟨rfl, rfl, -⟩ | hmade | hmade⟩)
      · exact .inl (.inl hn)
      · exact .inl (.inr ⟨rfl, rfl⟩)
      · exact .inr ⟨h', hmade⟩
      · simp [made] at hmade
  host n := by
    have hrecord : ((s.mark name t h).record c o name).needHost n =
        (s.mark name t h).needHost n := rfl
    rw [hnext.host n, hrecord, needHost_mark]
    simp only [mem_made_first, Prod.mk.injEq]
    constructor
    · rintro ((hn | ⟨rfl, rfl⟩) | ⟨t', hmade⟩)
      · exact .inl hn
      · exact .inr ⟨t, .inl ⟨rfl, rfl, rfl⟩⟩
      · exact .inr ⟨t', .inr (.inl hmade)⟩
    · rintro (hn | ⟨t', ⟨rfl, -, rfl⟩ | hmade | hmade⟩)
      · exact .inl (.inl hn)
      · exact .inl (.inr ⟨rfl, rfl⟩)
      · exact .inr ⟨t', hmade⟩
      · simp [made] at hmade
  known n hn := by
    by_cases hmet : n ∈ met E
    · exact hnext.known n hmet
    · rw [List.append_nil, met_cons] at hn
      obtain rfl : n = name := hn.resolve_right hmet
      obtain ⟨hbuild, hruntime⟩ := hnext.kept n hmet
      rw [hbuild, hruntime]
      exact ⟨Function.update_self _ _ _, Function.update_self _ _ _⟩
  kept n hn := by
    rw [List.append_nil, met_cons, Set.mem_insert_iff, not_or] at hn
    obtain ⟨hbuild, hruntime⟩ := hnext.kept n hn.2
    rw [hbuild, hruntime]
    exact ⟨Function.update_of_ne hn.1 _ _, Function.update_of_ne hn.1 _ _⟩

-- What a runtime dependency passes back leaves the marks alone.
private theorem outcome_map_inherit {calls : List (Name × Bool × Bool)} {name d : Name}
    {r : Option State} (hr : ∀ {s₁}, r = some s₁ → ∃ E, Outcome c o s calls E s₁)
    (hmap : (r.map fun s ↦ s.inherit name d) = some s₁) : ∃ E, Outcome c o s calls E s₁ := by
  obtain ⟨s₂, hs₂, rfl⟩ := Option.map_eq_some_iff.mp hmap
  obtain ⟨E, hE⟩ := hr hs₂
  exact ⟨E, hE.walk, hE.fetched, hE.target, hE.host, hE.known, hE.kept⟩

/-- A call does what its nested calls do, and marks its distribution. -/
theorem outcome_fetch {fuel : Nat} {name : Name} {t h : Bool}
    (hfetch : fetch c o fuel s name t h = some s₁) : ∃ E, Outcome c o s [(name, t, h)] E s₁ := by
  induction fuel generalizing s s₁ name t h with
  | zero => cases hfetch
  | succ fuel ih =>
    rw [fetch] at hfetch
    by_cases hname : name ∈ s.fetched
    · have hdist : ((s.mark name t h).dist name).isSome = true := hname
      rw [if_pos hdist, Option.some.injEq] at hfetch
      subst hfetch
      exact ⟨[], outcome_again hname⟩
    · have hdist : ¬ ((s.mark name t h).dist name).isSome = true := hname
      rw [if_neg hdist, Option.bind_eq_bind, Option.bind_eq_some_iff] at hfetch
      obtain ⟨s₂, hbuild, hruntime⟩ := hfetch
      obtain ⟨E₁, hE₁⟩ := outcome_foldlM (fun _ _ _ ↦ ih) hbuild
      -- The dependencies of the distribution are not fetched anew on the way.
      have hnot : name ∉ met E₁ := by
        rintro ⟨l, hl⟩
        apply hE₁.walk.notMem _ hl
        rw [fetched_record]
        exact .inl rfl
      have hdeps : s₂.depsRuntime name = c.runtime o name :=
        (hE₁.kept name hnot).2.trans (Function.update_self _ _ _)
      obtain ⟨E₂, hE₂⟩ := outcome_foldlM (fun _ _ _ ↦ outcome_map_inherit ih) hruntime
      rw [hdeps] at hE₂
      have hbuildDeps : ((s.mark name t h).record c o name).depsBuild name = c.build o name :=
        Function.update_self _ _ _
      rw [hbuildDeps] at hE₁
      exact ⟨_, outcome_first hname (hE₁.append hE₂)⟩

/-- The build dependencies of a distribution leave the list of its runtime ones alone. -/
theorem depsRuntime_of_build {fuel : Nat} {name : Name}
    (hbuild : ((s.record c o name).depsBuild name).foldlM
      (fun s d ↦ fetch c o fuel s d false true) (s.record c o name) = some s₁) :
    s₁.depsRuntime name = c.runtime o name := by
  obtain ⟨E, hE⟩ := outcome_foldlM (fun _ _ _ ↦ outcome_fetch) hbuild
  have hnot : name ∉ met E := by
    rintro ⟨l, hl⟩
    apply hE.walk.notMem _ hl
    rw [fetched_record]
    exact .inl rfl
  exact (hE.kept name hnot).2.trans (Function.update_self _ _ _)

/-- A call on a runtime dependency. -/
theorem outcome_inherit {fuel : Nat} {name d : Name} {t h : Bool}
    (hfetch : ((fetch c o fuel s d t h).map fun s ↦ s.inherit name d) = some s₁) :
    ∃ E, Outcome c o s [(d, t, h)] E s₁ :=
  outcome_map_inherit outcome_fetch hfetch

end MotionPie.Support.Scancpan
