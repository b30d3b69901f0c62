import MotionPie.Graph.Leaving
import MotionPie.Support.Scancpan.Marks

/-!
# Distributions that need dynamic loading

`need_dlopen` of `support/scripts/scancpan` is set for a distribution from its `MANIFEST`, before
its dependencies are fetched, and each runtime dependency passes its own value back when it has
been fetched, or at once if that has been begun before.
-/

namespace MotionPie.Support.Scancpan

open Base MotionPie.Graph Relation

variable (c : Cpan) (o : Options) (argv : List Name)

/-- The distribution itself is an XS module. -/
def Cpan.xs (name : Name) : Bool :=
  isXs (c.manifest (c.release name).author name (c.release name).version)

/-- The distribution or a transitive runtime dependency of it is an XS module. -/
def NeedsDlopen (n : Name) : Prop :=
  ∃ m, ReflTransGen (fun n d ↦ d ∈ c.runtime o n) n m ∧ c.xs m = true

/-- The calls that a distribution makes. The runtime dependencies come behind the build ones, and
count as edges. -/
def Cpan.edges (name : Name) : List (Option Name × Name) :=
  (c.build o name).map (none, ·) ++ (c.runtime o name).map (some name, ·)

/-- The calls of the command line. -/
def roots : List (Option Name × Name) := argv.map (none, ·)

/-- Every distribution that has been reached and needs dynamic loading has a path of runtime
dependencies to an XS module, the steps of which a depth-first search of the dependencies from the
command line leaves from the last to the first. -/
def LeftInOrder : Prop :=
  ∀ F D, Search (c.edges o) ∅ (roots argv) F D → ∀ n, Reached c o argv n → NeedsDlopen c o n →
    ∃ es m, IsPath n es m ∧ es.reverse.Sublist F ∧ c.xs m = true

variable {c o argv} {s s₁ s₂ : State} {F F' : List (Name × Name)}

/-- The values of the hash for the distributions that have been fetched; the others have the value
that they will start with. -/
structure State.Agrees (c : Cpan) (s : State) (v : Name → Bool) : Prop where
  fetched : ∀ n ∈ s.fetched, s.needDlopen n = v n
  fresh : ∀ n ∉ s.fetched, v n = c.xs n

/-- What a run of calls has done for the hash. -/
structure Passed (c : Cpan) (o : Options) (s : State) (calls : List (Option Name × Name))
    (F : List (Name × Name)) (s' : State) : Prop where
  search : Search (c.edges o) s.fetched calls F s'.fetched
  agrees : ∀ v, s.Agrees c v → s'.Agrees c (F.foldl passBack v)

/-- Calls in two parts. -/
theorem Passed.append {calls calls' : List (Option Name × Name)} (h : Passed c o s calls F s₁)
    (h' : Passed c o s₁ calls' F' s₂) : Passed c o s (calls ++ calls') (F ++ F') s₂ where
  search := h.search.append h'.search
  agrees v hv := by
    rw [List.foldl_append]
    exact h'.agrees _ (h.agrees v hv)

/-- A loop over distributions, in which those of `X` stay fetched. -/
theorem passed_foldlM {f : State → Name → Option State} {p : Option Name} {X : Set Name}
    (hf : ∀ s d s', X ⊆ s.fetched → f s d = some s' → ∃ F, Passed c o s [(p, d)] F s')
    {ds : List Name} (hX : X ⊆ s.fetched) (h : ds.foldlM f s = some s₁) :
    ∃ F, Passed c o s (ds.map (p, ·)) F s₁ := by
  induction ds generalizing s with
  | nil =>
    obtain rfl : s = s₁ := by simpa using h
    exact ⟨[], .nil _, fun v hv ↦ hv⟩
  | cons d ds ih =>
    rw [List.foldlM_cons, Option.bind_eq_bind, Option.bind_eq_some_iff] at h
    obtain ⟨s₂, hd, hds⟩ := h
    obtain ⟨F, hF⟩ := hf s d s₂ hX hd
    obtain ⟨F', hF'⟩ := ih (hX.trans hF.search.subset) hds
    exact ⟨F ++ F', hF.append hF'⟩

/-- The release of a distribution is recorded with the value from its `MANIFEST`. -/
theorem agrees_record {name : Name} (hname : name ∉ s.fetched) {v : Name → Bool}
    (hv : s.Agrees c v) : (s.record c o name).Agrees c v := by
  have hvalue : (s.record c o name).needDlopen = Function.update s.needDlopen name (c.xs name) :=
    rfl
  constructor
  · intro n hn
    rw [fetched_record] at hn
    by_cases heq : n = name
    · rw [hvalue, heq, Function.update_self, hv.fresh name hname]
    · rw [hvalue, Function.update_of_ne heq, hv.fetched n (hn.resolve_left heq)]
  · intro n hn
    rw [fetched_record] at hn
    exact hv.fresh n fun hmem ↦ hn (.inr hmem)

/-- A value is passed back. -/
theorem agrees_inherit {name d : Name} (hname : name ∈ s.fetched) (hd : d ∈ s.fetched)
    {v : Name → Bool} (hv : s.Agrees c v) : (s.inherit name d).Agrees c (passBack v (name, d)) := by
  have hvalue : (s.inherit name d).needDlopen =
      Function.update s.needDlopen name (s.needDlopen name || s.needDlopen d) := rfl
  constructor
  · intro n hn
    rw [hvalue, passBack, hv.fetched name hname, hv.fetched d hd]
    by_cases heq : n = name
    · rw [heq, Function.update_self, Function.update_self]
    · rw [Function.update_of_ne heq, Function.update_of_ne heq, hv.fetched n hn]
  · intro n hn
    have hne : n ≠ name := by
      rintro rfl
      exact hn hname
    rw [passBack, Function.update_of_ne hne]
    exact hv.fresh n hn

/-- What a call on a distribution has done, whatever it comes from. -/
theorem passed_fetch {fuel : Nat} {name : Name} {t h : Bool}
    (hfetch : fetch c o fuel s name t h = some s₁) :
    ∃ F, (∀ p, Search (c.edges o) s.fetched [(p, name)] (F ++ edge p name) s₁.fetched) ∧
      ∀ v, s.Agrees c v → s₁.Agrees c (F.foldl passBack v) := by
  induction fuel generalizing s s₁ name t h with
  | zero => cases hfetch
  | succ fuel ih =>
    rw [fetch] at hfetch
    by_cases hname : name ∈ s.fetched
    · have hdist : ((s.mark name t h).dist name).isSome = true := hname
      rw [if_pos hdist, Option.some.injEq] at hfetch
      subst hfetch
      refine ⟨[], fun p ↦ ?_, fun v hv ↦ ⟨hv.fetched, hv.fresh⟩⟩
      rw [List.nil_append, ← List.append_nil (edge p name)]
      exact .again hname (.nil _)
    · have hdist : ¬ ((s.mark name t h).dist name).isSome = true := hname
      rw [if_neg hdist, Option.bind_eq_bind, Option.bind_eq_some_iff] at hfetch
      obtain ⟨s₂, hbuild, hruntime⟩ := hfetch
      have hcall : ∀ s d s', ∅ ⊆ s.fetched → fetch c o fuel s d false true = some s' →
          ∃ F, Passed c o s [(none, d)] F s' := by
        intro s d s' _ hd
        obtain ⟨F, hsearch, hagrees⟩ := ih hd
        refine ⟨F, ?_, hagrees⟩
        simpa [edge] using hsearch none
      have hinherit : ∀ s d s', {name} ⊆ s.fetched →
          ((fetch c o fuel s d t h).map fun s ↦ s.inherit name d) = some s' →
            ∃ F, Passed c o s [(some name, d)] F s' := by
        intro s d s' hmem hd
        obtain ⟨s'', hcall, rfl⟩ := Option.map_eq_some_iff.mp hd
        obtain ⟨F, hsearch, hagrees⟩ := ih hcall
        refine ⟨F ++ edge (some name) d, hsearch (some name), fun v hv ↦ ?_⟩
        rw [List.foldl_append]
        have hstay : name ∈ s''.fetched := (hsearch none).subset (hmem rfl)
        have hmet : d ∈ s''.fetched := (hsearch none).mem_of_call (List.mem_singleton_self _)
        exact agrees_inherit hstay hmet (hagrees v hv)
      obtain ⟨F₁, hF₁⟩ := passed_foldlM hcall (Set.empty_subset _) hbuild
      have hmem : {name} ⊆ s₂.fetched := by
        rw [Set.singleton_subset_iff]
        apply hF₁.search.subset
        rw [fetched_record]
        exact .inl rfl
      obtain ⟨F₂, hF₂⟩ := passed_foldlM hinherit hmem hruntime
      have hdepsBuild : ((s.mark name t h).record c o name).depsBuild name = c.build o name :=
        Function.update_self _ _ _
      rw [hdepsBuild] at hF₁
      rw [depsRuntime_of_build hbuild] at hF₂
      have hpassed := hF₁.append hF₂
      refine ⟨F₁ ++ F₂, fun p ↦ ?_, fun v hv ↦ ?_⟩
      · have hsearch := hpassed.search
        rw [fetched_record, fetched_mark] at hsearch
        rw [← List.append_nil (_ ++ edge p name)]
        exact .first hname hsearch (.nil _)
      · exact hpassed.agrees v (agrees_record (s := s.mark name t h) hname ⟨hv.fetched, hv.fresh⟩)

/-- The values that the script ends with. -/
theorem needDlopen_of_run {fuel : Nat} (hrun : fetchAll c o fuel argv = some s) :
    ∃ F, Search (c.edges o) ∅ (roots argv) F s.fetched ∧
      ∀ n ∈ s.fetched, s.needDlopen n = true ↔
        ∃ es m, IsPath n es m ∧ es.reverse.Sublist F ∧ c.xs m = true := by
  have hempty : State.initial.fetched = ∅ := by simp [State.fetched, State.initial]
  have hcall : ∀ s d s', ∅ ⊆ s.fetched → fetch c o fuel s d o.target o.host = some s' →
      ∃ F, Passed c o s [(none, d)] F s' := by
    intro s d s' _ hd
    obtain ⟨F, hsearch, hagrees⟩ := passed_fetch hd
    refine ⟨F, ?_, hagrees⟩
    simpa [edge] using hsearch none
  obtain ⟨F, hF⟩ := passed_foldlM hcall (Set.empty_subset _) hrun
  have hstart : State.initial.Agrees c c.xs := by
    constructor
    · intro n hn
      rw [hempty] at hn
      cases hn
    · exact fun n _ ↦ rfl
  refine ⟨F, hempty ▸ hF.search, fun n hn ↦ ?_⟩
  rw [(hF.agrees _ hstart).fetched n hn, foldl_passBack_iff]

/-- A step of a path over edges of the search is a runtime dependency. -/
theorem mem_runtime_of_search {D D' : Set Name} (h : Search (c.edges o) D (roots argv) F D')
    {e : Name × Name} (he : e ∈ F) : e.2 ∈ c.runtime o e.1 := by
  rcases h.mem_calls he with hroot | ⟨n, hn⟩
  · obtain ⟨r, -, heq⟩ := List.mem_map.mp hroot
    cases heq
  · rcases List.mem_append.mp hn with hn | hn
    · obtain ⟨d, -, heq⟩ := List.mem_map.mp hn
      cases heq
    · obtain ⟨d, hd, heq⟩ := List.mem_map.mp hn
      obtain ⟨hn, rfl⟩ := Prod.mk.inj heq
      obtain rfl := Option.some.inj hn
      exact hd

/-- Fetching ends, for every command line that leads to finitely many distributions, and the values
that it leaves are right exactly when the steps of enough paths are left in order. -/
theorem needDlopen_iff (c : Cpan) (o : Options) (argv : List Name) (U : Finset Name)
    (hU : ∀ n ∈ U, ∀ d, Requires c o n d → d ∈ U) (hargv : ∀ n ∈ argv, n ∈ U) (fuel : Nat)
    (hfuel : U.card < fuel) :
    ∃ s, fetchAll c o fuel argv = some s ∧
      ((∀ n, Reached c o argv n → (s.needDlopen n = true ↔ NeedsDlopen c o n)) ↔
        LeftInOrder c o argv) := by
  obtain ⟨s, hs⟩ := fetchAll_total hU hargv hfuel
  obtain ⟨E, hE⟩ : ∃ E, Outcome c o .initial (requests o argv) E s :=
    outcome_foldlM (fun _ _ _ ↦ outcome_fetch) hs
  have hreached : ∀ n, n ∈ s.fetched ↔ Reached c o argv n := by
    have hempty : State.initial.fetched = ∅ := by simp [State.fetched, State.initial]
    intro n
    rw [hE.fetched, hempty, Set.empty_union, met_iff hE]
  obtain ⟨F, hsearch, hvalues⟩ := needDlopen_of_run hs
  refine ⟨s, hs, ?_⟩
  constructor
  · intro hall F' D hF' n hn hneeds
    obtain ⟨rfl, -⟩ := hF'.unique hsearch
    exact (hvalues n ((hreached n).mpr hn)).mp ((hall n hn).mpr hneeds)
  · intro hleft n hn
    rw [hvalues n ((hreached n).mpr hn)]
    constructor
    · rintro ⟨es, m, hpath, hsub, hm⟩
      refine ⟨m, hpath.reflTransGen fun e he ↦ ?_, hm⟩
      exact mem_runtime_of_search hsearch (hsub.subset (List.mem_reverse.mpr he))
    · exact hleft F s.fetched hsearch n hn

/-- `App` runs with `Plugin` and then with `Fast`, an XS module; `Plugin` runs with `App`. -/
def pluginCycle : Cpan :=
  { libFirst with
    release n :=
      let dependency :=
        if n = str "App" then
          [⟨str "Plugin", str "runtime", str "requires"⟩, ⟨str "Fast", str "runtime", str "requires"⟩]
        else if n = str "Plugin" then [⟨str "App", str "runtime", str "requires"⟩]
        else []
      ⟨str "author", str "1.0", dependency⟩
    manifest _ n _ := if n = str "Fast" then str "Fast.xs\n" else str "README\n" }

/-- `App` leads to three distributions. -/
theorem needDlopen_iff_app :
    ∃ s, fetchAll pluginCycle plain 4 [str "App"] = some s ∧
      ((∀ n, Reached pluginCycle plain [str "App"] n →
          (s.needDlopen n = true ↔ NeedsDlopen pluginCycle plain n)) ↔
        LeftInOrder pluginCycle plain [str "App"]) := by
  have hU : ∀ n ∈ [str "App", str "Plugin", str "Fast"].toFinset,
      ∀ d, Requires pluginCycle plain n d → d ∈ [str "App", str "Plugin", str "Fast"].toFinset := by
    have hall : ∀ n ∈ [str "App", str "Plugin", str "Fast"],
        ∀ d ∈ pluginCycle.build plain n ++ pluginCycle.runtime plain n,
          d ∈ [str "App", str "Plugin", str "Fast"] := by decide
    intro n hn d hd
    rw [List.mem_toFinset] at hn ⊢
    exact hall n hn d (List.mem_append.mpr hd)
  exact needDlopen_iff pluginCycle plain [str "App"] _ hU (by decide) 4 (by decide)

/-- `Plugin` gets the value that `App` has before `Fast` is fetched. -/
theorem pluginCycle_needDlopen :
    ∃ s, fetchAll pluginCycle plain 4 [str "App"] = some s ∧
      Reached pluginCycle plain [str "App"] (str "Plugin") ∧
      s.needDlopen (str "Plugin") = false ∧ NeedsDlopen pluginCycle plain (str "Plugin") := by
  have hrun : (fetchAll pluginCycle plain 4 [str "App"]).any (fun s ↦
      !s.needDlopen (str "Plugin")) = true := by decide
  obtain ⟨s, hs, hvalue⟩ := (Option.any_eq_true _ _).mp hrun
  have happ : str "App" ∈ pluginCycle.runtime plain (str "Plugin") := by decide
  have hplugin : str "Plugin" ∈ pluginCycle.runtime plain (str "App") := by decide
  have hfast : str "Fast" ∈ pluginCycle.runtime plain (str "App") := by decide
  refine ⟨s, hs, ⟨str "App", List.mem_singleton_self _, .single (.inr hplugin)⟩,
    (Bool.not_eq_true' _).mp hvalue, ⟨str "Fast", ?_, by decide⟩⟩
  exact .head happ (.single hfast)

end MotionPie.Support.Scancpan
