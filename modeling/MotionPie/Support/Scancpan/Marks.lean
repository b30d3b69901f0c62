import Mathlib.Data.Finset.Card
import Mathlib.Logic.Relation
import MotionPie.Graph.Route
import MotionPie.Support.Scancpan.Fetch

/-!
# The marks of fetched distributions

A distribution passes its marks on when it is met first, and only then. So a mark that it gets later
is missing from its runtime dependencies, unless something else needs them as well. Fetching ends
when the command line reaches finitely many distributions.
-/

namespace MotionPie.Support.Scancpan

open Base MotionPie.Graph Relation

/-! ### What is needed -/

variable (c : Cpan) (o : Options) (argv : List Name)

/-- `d` is a dependency of `n`. -/
def Requires (n d : Name) : Prop := d ∈ c.build o n ∨ d ∈ c.runtime o n

/-- The command line leads to `n`. -/
def Reached (n : Name) : Prop := ∃ r ∈ argv, ReflTransGen (Requires c o) r n

/-- The host needs what was requested for it, the build dependencies of everything, and the runtime
dependencies of what it needs. -/
inductive NeededOnHost : Name → Prop
  | requested {n : Name} (hhost : o.host = true) (hn : n ∈ argv) : NeededOnHost n
  | build {n d : Name} (hn : Reached c o argv n) (hd : d ∈ c.build o n) : NeededOnHost d
  | runtime {n d : Name} (hn : NeededOnHost n) (hd : d ∈ c.runtime o n) : NeededOnHost d

/-- The target needs what was requested for it and the runtime dependencies of what it needs. -/
inductive NeededOnTarget : Name → Prop
  | requested {n : Name} (htarget : o.target = true) (hn : n ∈ argv) : NeededOnTarget n
  | runtime {n d : Name} (hn : NeededOnTarget n) (hd : d ∈ c.runtime o n) : NeededOnTarget d

/-- The calls of the command line. -/
def requests : List (Name × Bool × Bool) := argv.map fun n ↦ (n, o.target, o.host)

/-- The first way from the command line to `n` makes it needed for the target or not and for the
host or not. Earlier requests and dependencies come first, build dependencies before runtime ones;
what is built with is for the host, what is run with is for the same as before. -/
def FirstMet (n : Name) (t h : Bool) : Prop :=
  ∃ is, FirstRoute (c.next o) ∅ (requests o argv) is (n, t, h)

/-- Where the first way to a distribution is not for the host or the target, although it is needed
there, its runtime dependencies are needed there in another way: one is a build dependency, was
requested, or is a runtime dependency of a distribution to which the first way is. -/
structure PassesOn : Prop where
  host : ∀ n t, FirstMet c o argv n t false → NeededOnHost c o argv n → ∀ d ∈ c.runtime o n,
    (∃ m, Reached c o argv m ∧ d ∈ c.build o m) ∨
      ∃ m t, FirstMet c o argv m t true ∧ d ∈ c.runtime o m
  target : ∀ n h, FirstMet c o argv n false h → NeededOnTarget c o argv n → ∀ d ∈ c.runtime o n,
    d ∈ argv ∨ ∃ m h, FirstMet c o argv m true h ∧ d ∈ c.runtime o m

/-! ### Fetching ends -/

section Total

variable {c o} {U : Finset Name} {s s₁ : State} {calls E : List (Name × Bool × Bool)}

/-- How many distributions of `U` have not been fetched. -/
def unfetched (U : Finset Name) (s : State) : Nat :=
  (U.filter fun n ↦ (s.dist n).isSome = false).card

/-- Fetching makes them fewer. -/
theorem unfetched_le (h : Outcome c o s calls E s₁) : unfetched U s₁ ≤ unfetched U s := by
  apply Finset.card_le_card
  intro n hn
  rw [Finset.mem_filter] at hn ⊢
  refine ⟨hn.1, ?_⟩
  by_contra hsome
  have hmem : n ∈ s₁.fetched := by
    rw [h.fetched]
    exact .inl ((Bool.not_eq_false _).mp hsome)
  have hdist : (s₁.dist n).isSome = true := hmem
  rw [hdist] at hn
  exact absurd hn.2 (by decide)

/-- A recorded release is one of them less. -/
theorem unfetched_record {name : Name} {t h : Bool} (hU : name ∈ U) (hname : name ∉ s.fetched) :
    unfetched U ((s.mark name t h).record c o name) < unfetched U s := by
  apply Finset.card_lt_card
  rw [Finset.ssubset_iff_of_subset]
  · refine ⟨name, ?_, ?_⟩
    · rw [Finset.mem_filter]
      exact ⟨hU, by simpa [State.fetched] using hname⟩
    · simp [State.record]
  · intro n hn
    rw [Finset.mem_filter] at hn ⊢
    refine ⟨hn.1, ?_⟩
    by_cases heq : n = name
    · simp [heq, State.record] at hn
    · simpa [State.record, State.mark, heq] using hn.2

-- A loop over distributions whose calls all end.
private theorem foldlM_total {f : State → Name → Option State} (flags : Bool × Bool) {fuel : Nat}
    (hf : ∀ s d s', f s d = some s' → ∃ E, Outcome c o s [(d, flags)] E s')
    (hend : ∀ s, ∀ d ∈ U, unfetched U s < fuel → ∃ s', f s d = some s') {ds : List Name}
    (hds : ∀ d ∈ ds, d ∈ U) (hfuel : unfetched U s < fuel) : ∃ s', ds.foldlM f s = some s' := by
  induction ds generalizing s with
  | nil => exact ⟨s, rfl⟩
  | cons d ds ih =>
    rw [List.forall_mem_cons] at hds
    obtain ⟨s₁, hs₁⟩ := hend s d hds.1 hfuel
    obtain ⟨E, hE⟩ := hf s d s₁ hs₁
    obtain ⟨s₂, hs₂⟩ := ih hds.2 ((unfetched_le hE).trans_lt hfuel)
    exact ⟨s₂, by rw [List.foldlM_cons, hs₁]; exact hs₂⟩

/-- A call ends when the nested calls are not fewer than the distributions. -/
theorem fetch_total (hU : ∀ n ∈ U, ∀ d, Requires c o n d → d ∈ U) {fuel : Nat} {name : Name}
    (hname : name ∈ U) {t h : Bool} (hfuel : unfetched U s < fuel) :
    ∃ s', fetch c o fuel s name t h = some s' := by
  induction fuel generalizing s name t h with
  | zero => omega
  | succ fuel ih =>
    rw [fetch]
    by_cases hfetched : name ∈ s.fetched
    · exact ⟨_, if_pos hfetched⟩
    · have hdist : ¬ ((s.mark name t h).dist name).isSome = true := hfetched
      simp only [if_neg hdist]
      have hless : unfetched U ((s.mark name t h).record c o name) < fuel := by
        have hrecord := unfetched_record (c := c) (o := o) (t := t) (h := h) hname hfetched
        omega
      have hdepsBuild : ((s.mark name t h).record c o name).depsBuild name = c.build o name :=
        Function.update_self _ _ _
      have hbuild : ∀ d ∈ ((s.mark name t h).record c o name).depsBuild name, d ∈ U := by
        rw [hdepsBuild]
        exact fun d hd ↦ hU name hname d (.inl hd)
      obtain ⟨s₂, hs₂⟩ := foldlM_total (false, true) (fun _ _ _ ↦ outcome_fetch)
        (fun s d hd ↦ ih hd) hbuild hless
      obtain ⟨E, hE⟩ := outcome_foldlM (fun _ _ _ ↦ outcome_fetch) hs₂
      have hruntime : ∀ d ∈ s₂.depsRuntime name, d ∈ U := by
        rw [depsRuntime_of_build hs₂]
        exact fun d hd ↦ hU name hname d (.inr hd)
      have hinherit : ∀ s, ∀ d ∈ U, unfetched U s < fuel →
          ∃ s', ((fetch c o fuel s d t h).map fun s ↦ s.inherit name d) = some s' := by
        intro s d hd hlt
        obtain ⟨s', hs'⟩ := ih hd hlt
        exact ⟨_, by rw [hs', Option.map_some]⟩
      obtain ⟨s₃, hs₃⟩ := foldlM_total (t, h)
        (f := fun s d ↦ (fetch c o fuel s d t h).map fun s ↦ s.inherit name d)
        (fun _ _ _ ↦ outcome_inherit) hinherit hruntime ((unfetched_le hE).trans_lt hless)
      refine ⟨s₃, ?_⟩
      rw [hs₂]
      exact hs₃

/-- The script ends for every command line that leads to finitely many distributions. -/
theorem fetchAll_total (hU : ∀ n ∈ U, ∀ d, Requires c o n d → d ∈ U) {argv : List Name}
    (hargv : ∀ n ∈ argv, n ∈ U) {fuel : Nat} (hfuel : U.card < fuel) :
    ∃ s, fetchAll c o fuel argv = some s := by
  have hless : unfetched U .initial < fuel := (Finset.card_filter_le _ _).trans_lt hfuel
  exact foldlM_total (o.target, o.host) (fun _ _ _ ↦ outcome_fetch)
    (fun s d hd ↦ fetch_total hU hd) hargv hless

end Total

/-! ### Which marks are set -/

section Marks

variable {c o argv} {s : State} {E : List (Name × Bool × Bool)}

-- The first calls of a run are those of its walk.
private theorem firstMet_iff (h : Outcome c o .initial (requests o argv) E s) {n : Name}
    {t b : Bool} : FirstMet c o argv n t b ↔ (n, t, b) ∈ E := by
  have hwalk : Walk (c.next o) ∅ (requests o argv) E := by
    have hempty : State.initial.fetched = ∅ := by simp [State.fetched, State.initial]
    exact hempty ▸ h.walk
  have hnext : SameNodes (c.next o) := by
    intro a l l'
    simp only [Cpan.next, List.map_append, List.map_map, Function.comp_def]
  exact (hwalk.mem_iff_firstRoute hnext).symm

/-- What a call passes on. -/
theorem mem_next {n d : Name} {t b : Bool} {l : Bool × Bool} :
    (d, t, b) ∈ c.next o n l ↔
      (d ∈ c.build o n ∧ t = false ∧ b = true) ∨ (d ∈ c.runtime o n ∧ (t, b) = l) := by
  simp only [Cpan.next, List.mem_append, List.mem_map, Prod.mk.injEq]
  constructor
  · rintro (⟨d, hd, rfl, rfl, rfl⟩ | ⟨d, hd, rfl, hl⟩)
    · exact .inl ⟨hd, rfl, rfl⟩
    · exact .inr ⟨hd, hl.symm⟩
  · rintro (⟨hd, rfl, rfl⟩ | ⟨hd, hl⟩)
    · exact .inl ⟨d, hd, rfl, rfl, rfl⟩
    · exact .inr ⟨d, hd, rfl, hl.symm⟩

/-- The calls of a run: the requests, and what is passed on by the first calls. -/
theorem mem_calls {d : Name} {t b : Bool} :
    (d, t, b) ∈ made (c.next o) (requests o argv) E ↔
      (d ∈ argv ∧ t = o.target ∧ b = o.host) ∨
        ∃ e ∈ E, (d ∈ c.build o e.1 ∧ t = false ∧ b = true) ∨
          (d ∈ c.runtime o e.1 ∧ (t, b) = e.2) := by
  simp only [made, requests, List.mem_append, List.mem_map, List.mem_flatMap, mem_next,
    Prod.mk.injEq]
  constructor
  · rintro (⟨n, hn, rfl, rfl, rfl⟩ | h)
    · exact .inl ⟨hn, rfl, rfl⟩
    · exact .inr h
  · rintro (⟨hn, rfl, rfl⟩ | h)
    · exact .inl ⟨d, hn, rfl, rfl, rfl⟩
    · exact .inr h

/-- What has been met is what the command line leads to. -/
theorem met_iff (h : Outcome c o .initial (requests o argv) E s) {n : Name} :
    n ∈ met E ↔ Reached c o argv n := by
  have hempty : State.initial.fetched = ∅ := by simp [State.fetched, State.initial]
  constructor
  · rintro ⟨l, hl⟩
    refine h.walk.induct (fun n _ ↦ Reached c o argv n) ?_ ?_ _ hl
    · intro e he
      obtain ⟨n, hn, rfl⟩ := List.mem_map.mp he
      exact ⟨n, hn, .refl⟩
    · rintro n l ⟨r, hr, hreach⟩ ⟨d, t, b⟩ hd
      refine ⟨r, hr, hreach.tail ?_⟩
      rcases mem_next.mp hd with ⟨hd, -⟩ | ⟨hd, -⟩
      · exact .inl hd
      · exact .inr hd
  · have hclosed : ∀ {e}, e ∈ made (c.next o) (requests o argv) E → e.1 ∈ met E := by
      intro e he
      simpa [hempty] using h.walk.closed e he
    rintro ⟨r, hr, hreach⟩
    induction hreach with
    | refl => exact hclosed (mem_calls.mpr (.inl ⟨hr, rfl, rfl⟩))
    | tail _ hd ih =>
      obtain ⟨l, hl⟩ := ih
      rcases hd with hd | hd
      · exact hclosed (mem_calls.mpr (.inr ⟨_, hl, .inl ⟨hd, rfl, rfl⟩⟩))
      · exact hclosed (mem_calls.mpr (.inr ⟨_, hl, .inr ⟨hd, rfl⟩⟩))

/-- The marks for the host. -/
theorem needHost_iff (h : Outcome c o .initial (requests o argv) E s) {d : Name} :
    s.needHost d = true ↔ (d ∈ argv ∧ o.host = true) ∨
      (∃ m, Reached c o argv m ∧ d ∈ c.build o m) ∨
        ∃ m t, FirstMet c o argv m t true ∧ d ∈ c.runtime o m := by
  have hinitial : State.initial.needHost d = true ↔ False := by simp [State.initial]
  rw [h.host d, hinitial, false_or]
  simp only [mem_calls, ← met_iff h, firstMet_iff h]
  constructor
  · rintro ⟨t, ⟨hd, -, hhost⟩ | ⟨⟨m, l⟩, he, ⟨hd, -⟩ | ⟨hd, hl⟩⟩⟩
    · exact .inl ⟨hd, hhost.symm⟩
    · exact .inr (.inl ⟨m, ⟨l, he⟩, hd⟩)
    · exact .inr (.inr ⟨m, t, hl ▸ he, hd⟩)
  · rintro (⟨hd, hhost⟩ | ⟨m, ⟨l, he⟩, hd⟩ | ⟨m, t, he, hd⟩)
    · exact ⟨o.target, .inl ⟨hd, rfl, hhost.symm⟩⟩
    · exact ⟨false, .inr ⟨(m, l), he, .inl ⟨hd, rfl, trivial⟩⟩⟩
    · exact ⟨t, .inr ⟨(m, t, true), he, .inr ⟨hd, rfl⟩⟩⟩

/-- The marks for the target. -/
theorem needTarget_iff (h : Outcome c o .initial (requests o argv) E s) {d : Name} :
    s.needTarget d = true ↔ (d ∈ argv ∧ o.target = true) ∨
      ∃ m b, FirstMet c o argv m true b ∧ d ∈ c.runtime o m := by
  have hinitial : State.initial.needTarget d = true ↔ False := by simp [State.initial]
  rw [h.target d, hinitial, false_or]
  simp only [mem_calls, firstMet_iff h]
  constructor
  · rintro ⟨b, ⟨hd, htarget, -⟩ | ⟨⟨m, l⟩, he, ⟨-, hfalse, -⟩ | ⟨hd, hl⟩⟩⟩
    · exact .inl ⟨hd, htarget.symm⟩
    · cases hfalse
    · exact .inr ⟨m, b, hl ▸ he, hd⟩
  · rintro (⟨hd, htarget⟩ | ⟨m, b, he, hd⟩)
    · exact ⟨o.host, .inl ⟨hd, htarget.symm, rfl⟩⟩
    · exact ⟨b, .inr ⟨(m, true, b), he, .inr ⟨hd, rfl⟩⟩⟩

/-- A first way is for the host or the target only if its distribution is needed there, and it is
for the host if that was requested. -/
theorem of_firstMet (h : Outcome c o .initial (requests o argv) E s) {n : Name} {t b : Bool}
    (hfirst : FirstMet c o argv n t b) :
    (b = true → NeededOnHost c o argv n) ∧ (t = true → NeededOnTarget c o argv n) ∧
      (o.host = true → b = true) := by
  have hall : ∀ e ∈ E, Reached c o argv e.1 ∧ (e.2.2 = true → NeededOnHost c o argv e.1) ∧
      (e.2.1 = true → NeededOnTarget c o argv e.1) ∧ (o.host = true → e.2.2 = true) := by
    refine h.walk.induct (fun n l ↦ Reached c o argv n ∧ (l.2 = true → NeededOnHost c o argv n) ∧
      (l.1 = true → NeededOnTarget c o argv n) ∧ (o.host = true → l.2 = true)) ?_ ?_
    · intro e he
      obtain ⟨n, hn, rfl⟩ := List.mem_map.mp he
      exact ⟨⟨n, hn, .refl⟩, fun hhost ↦ .requested hhost hn, fun htarget ↦ .requested htarget hn,
        id⟩
    · rintro n l ⟨⟨r, hr, hreach⟩, hhost, htarget, hkept⟩ ⟨d, t, b⟩ hmem
      rcases mem_next.mp hmem with ⟨hd, rfl, rfl⟩ | ⟨hd, rfl⟩
      · exact ⟨⟨r, hr, hreach.tail (.inl hd)⟩, fun _ ↦ .build ⟨r, hr, hreach⟩ hd, nofun,
          fun _ ↦ rfl⟩
      · exact ⟨⟨r, hr, hreach.tail (.inr hd)⟩, fun hb ↦ .runtime (hhost hb) hd,
          fun ht ↦ .runtime (htarget ht) hd, hkept⟩
  exact (hall _ ((firstMet_iff h).mp hfirst)).2

/-- The dependency lists that the script keeps are those of the server. -/
theorem deps_eq (h : Outcome c o .initial (requests o argv) E s) {n : Name}
    (hn : Reached c o argv n) : s.depsBuild n = c.build o n ∧ s.depsRuntime n = c.runtime o n :=
  h.known n ((met_iff h).mpr hn)

/-- What is needed on the host has been reached. -/
theorem NeededOnHost.reached {n : Name} (h : NeededOnHost c o argv n) : Reached c o argv n := by
  induction h with
  | requested _ hn => exact ⟨_, hn, .refl⟩
  | build hn hd =>
    obtain ⟨r, hr, hreach⟩ := hn
    exact ⟨r, hr, hreach.tail (.inl hd)⟩
  | runtime _ hd ih =>
    obtain ⟨r, hr, hreach⟩ := ih
    exact ⟨r, hr, hreach.tail (.inr hd)⟩

/-- What is needed on the target has been reached. -/
theorem NeededOnTarget.reached {n : Name} (h : NeededOnTarget c o argv n) :
    Reached c o argv n := by
  induction h with
  | requested _ hn => exact ⟨_, hn, .refl⟩
  | runtime _ hd ih =>
    obtain ⟨r, hr, hreach⟩ := ih
    exact ⟨r, hr, hreach.tail (.inr hd)⟩

/-- The target needs something only with its option. -/
theorem NeededOnTarget.option {n : Name} (h : NeededOnTarget c o argv n) : o.target = true := by
  induction h with
  | requested htarget _ => exact htarget
  | runtime _ _ ih => exact ih

/-- A mark for the host is never wrong. -/
theorem neededOnHost_of_needHost (h : Outcome c o .initial (requests o argv) E s) {d : Name}
    (hd : s.needHost d = true) : NeededOnHost c o argv d := by
  rcases (needHost_iff h).mp hd with ⟨hargv, hhost⟩ | ⟨m, hm, hd⟩ | ⟨m, t, hm, hd⟩
  · exact .requested hhost hargv
  · exact .build hm hd
  · exact .runtime ((of_firstMet h hm).1 rfl) hd

/-- A mark for the target is never wrong. -/
theorem neededOnTarget_of_needTarget (h : Outcome c o .initial (requests o argv) E s) {d : Name}
    (hd : s.needTarget d = true) : NeededOnTarget c o argv d := by
  rcases (needTarget_iff h).mp hd with ⟨hargv, htarget⟩ | ⟨m, b, hm, hd⟩
  · exact .requested htarget hargv
  · exact .runtime ((of_firstMet h hm).2.1 rfl) hd

/-- Marks that are closed under dependencies are all there. -/
theorem needHost_of_closed (h : Outcome c o .initial (requests o argv) E s) (hclosed : s.Closed)
    {d : Name} (hd : NeededOnHost c o argv d) : s.needHost d = true := by
  induction hd with
  | requested hhost hn => exact (needHost_iff h).mpr (.inl ⟨hn, hhost⟩)
  | build hn hd => exact (needHost_iff h).mpr (.inr (.inl ⟨_, hn, hd⟩))
  | runtime hn hd ih => exact hclosed.hostRuntime _ ih _ ((deps_eq h hn.reached).2 ▸ hd)

/-- Marks that are closed under dependencies are all there. -/
theorem needTarget_of_closed (h : Outcome c o .initial (requests o argv) E s) (hclosed : s.Closed)
    {d : Name} (hd : NeededOnTarget c o argv d) : s.needTarget d = true := by
  induction hd with
  | requested htarget hn => exact (needTarget_iff h).mpr (.inl ⟨hn, htarget⟩)
  | runtime hn hd ih => exact hclosed.targetRuntime _ ih _ ((deps_eq h hn.reached).2 ▸ hd)

/-- The first way to a distribution that has been reached. -/
theorem exists_firstMet (h : Outcome c o .initial (requests o argv) E s) {n : Name}
    (hn : Reached c o argv n) : ∃ t b, FirstMet c o argv n t b := by
  obtain ⟨⟨t, b⟩, hmem⟩ := (met_iff h).mpr hn
  exact ⟨t, b, (firstMet_iff h).mpr hmem⟩

/-- The marks are closed under dependencies exactly when what the first ways leave out is needed in
another way. -/
theorem closed_iff (h : Outcome c o .initial (requests o argv) E s) :
    s.Closed ↔ PassesOn c o argv := by
  constructor
  · intro hclosed
    constructor
    · intro n t hfirst hn d hd
      rcases (needHost_iff h).mp (needHost_of_closed h hclosed (.runtime hn hd)) with
        ⟨-, hhost⟩ | hmark
      · exact absurd ((of_firstMet h hfirst).2.2 hhost) (by decide)
      · exact hmark
    · intro n b hfirst hn d hd
      rcases (needTarget_iff h).mp (needTarget_of_closed h hclosed (.runtime hn hd)) with
        ⟨hargv, -⟩ | hmark
      · exact .inl hargv
      · exact .inr hmark
  · intro hpasses
    have hbuild : ∀ n, Reached c o argv n → ∀ d ∈ s.depsBuild n, s.needHost d = true :=
      fun n hn d hd ↦ (needHost_iff h).mpr (.inr (.inl ⟨n, hn, (deps_eq h hn).1 ▸ hd⟩))
    constructor
    · exact fun n hn ↦ hbuild n (neededOnHost_of_needHost h hn).reached
    · intro n hn d hd
      have hneeded := neededOnHost_of_needHost h hn
      rw [(deps_eq h hneeded.reached).2] at hd
      obtain ⟨t, b, hfirst⟩ := exists_firstMet h hneeded.reached
      cases b with
      | true => exact (needHost_iff h).mpr (.inr (.inr ⟨n, t, hfirst, hd⟩))
      | false => exact (needHost_iff h).mpr (.inr (hpasses.host n t hfirst hneeded d hd))
    · exact fun n hn ↦ hbuild n (neededOnTarget_of_needTarget h hn).reached
    · intro n hn d hd
      have hneeded := neededOnTarget_of_needTarget h hn
      rw [(deps_eq h hneeded.reached).2] at hd
      obtain ⟨t, b, hfirst⟩ := exists_firstMet h hneeded.reached
      cases t with
      | true => exact (needTarget_iff h).mpr (.inr ⟨n, b, hfirst, hd⟩)
      | false =>
        rcases hpasses.target n b hfirst hneeded d hd with hargv | hmark
        · exact (needTarget_iff h).mpr (.inl ⟨hargv, hneeded.option⟩)
        · exact (needTarget_iff h).mpr (.inr hmark)

end Marks

/-! ### The script -/

/-- Fetching ends, for every command line that leads to finitely many distributions, and the marks
that it leaves are closed under dependencies exactly when what the first ways leave out is needed in
another way. -/
theorem fetchAll_closed_iff (c : Cpan) (o : Options) (argv : List Name) (U : Finset Name)
    (hU : ∀ n ∈ U, ∀ d, Requires c o n d → d ∈ U) (hargv : ∀ n ∈ argv, n ∈ U) (fuel : Nat)
    (hfuel : U.card < fuel) :
    ∃ s, fetchAll c o fuel argv = some s ∧ (s.Closed ↔ PassesOn c o argv) := by
  obtain ⟨s, hs⟩ := fetchAll_total hU hargv hfuel
  obtain ⟨E, hE⟩ : ∃ E, Outcome c o .initial (requests o argv) E s :=
    outcome_foldlM (fun _ _ _ ↦ outcome_fetch) hs
  exact ⟨s, hs, closed_iff hE⟩

/-- `Web` runs with `Lib`, which runs with `Core`; `Gui` is built with `Lib`. -/
def libFirst : Cpan where
  release n :=
    let dependency :=
      if n = str "Web" then [⟨str "Lib", str "runtime", str "requires"⟩]
      else if n = str "Lib" then [⟨str "Core", str "runtime", str "requires"⟩]
      else if n = str "Gui" then [⟨str "Lib", str "build", str "requires"⟩]
      else []
    ⟨str "author", str "1.0", dependency⟩
  manifest _ _ _ := []
  distribution := id
  isCore _ := false
  buildKeys _ l := l.dedup
  runtimeKeys _ l := l.dedup
  buildKeys_perm _ _ := .refl _
  runtimeKeys_perm _ _ := .refl _

/-- The options of a plain call. -/
def plain : Options where
  target := true
  host := false
  recommend := false
  test := false

/-- Both distributions lead to four. -/
theorem fetchAll_closed_iff_web :
    ∃ s, fetchAll libFirst plain 5 [str "Web", str "Gui"] = some s ∧
      (s.Closed ↔ PassesOn libFirst plain [str "Web", str "Gui"]) := by
  have hU : ∀ n ∈ [str "Web", str "Gui", str "Lib", str "Core"].toFinset,
      ∀ d, Requires libFirst plain n d →
        d ∈ [str "Web", str "Gui", str "Lib", str "Core"].toFinset := by
    have hall : ∀ n ∈ [str "Web", str "Gui", str "Lib", str "Core"],
        ∀ d ∈ libFirst.build plain n ++ libFirst.runtime plain n,
          d ∈ [str "Web", str "Gui", str "Lib", str "Core"] := by decide
    intro n hn d hd
    rw [List.mem_toFinset] at hn ⊢
    exact hall n hn d (List.mem_append.mpr hd)
  exact fetchAll_closed_iff libFirst plain [str "Web", str "Gui"] _ hU (by decide) 5 (by decide)

/-- Fetching `Web` and `Gui` leaves marks that are not closed: `Lib` is met as a runtime dependency
and needed on the host only later, and `Core` is not marked for the host. -/
theorem libFirst_not_closed :
    ∃ s, fetchAll libFirst plain 5 [str "Web", str "Gui"] = some s ∧
      s.needHost (str "Lib") = true ∧ str "Core" ∈ s.depsRuntime (str "Lib") ∧
      s.needHost (str "Core") = false ∧ ¬ s.Closed := by
  have hrun : (fetchAll libFirst plain 5 [str "Web", str "Gui"]).any (fun s ↦
      s.needHost (str "Lib") && decide (str "Core" ∈ s.depsRuntime (str "Lib")) &&
        !s.needHost (str "Core")) = true := by decide
  obtain ⟨s, hs, hmarks⟩ := (Option.any_eq_true _ _).mp hrun
  simp only [Bool.and_eq_true, decide_eq_true_eq, Bool.not_eq_true'] at hmarks
  obtain ⟨⟨hlib, hdep⟩, hcore⟩ := hmarks
  refine ⟨s, hs, hlib, hdep, hcore, fun hclosed ↦ ?_⟩
  rw [hclosed.hostRuntime _ hlib _ hdep] at hcore
  cases hcore

end MotionPie.Support.Scancpan
