import Mathlib.Algebra.BigOperators.Group.Finset.Basic
import Mathlib.Algebra.Ring.Int.Defs
import Mathlib.Data.List.AList
import MotionPie.Package.Generic.StepTime
import MotionPie.Shell.Text

/-!
# Build times by package and by step

`Package` and `read_data` of `support/scripts/graph-build-time`: the times of a package are kept
under whatever step the log names, the graphs by step sum over a list of their own.
-/

namespace MotionPie.Support.GraphBuildTime

open Base Package.Generic Shell

/-- A dictionary of times by step. -/
abbrev Times := AList fun _ : Bytes ↦ Int

/-- `steps`, `support/scripts/graph-build-time:72-74`. -/
def steps : List Bytes :=
  [str "extract", str "patch", str "configure", str "build", str "install-target",
    str "install-staging", str "install-images", str "install-host"]

/-- `Package`, `support/scripts/graph-build-time:82-87`. -/
structure Package where
  name : Bytes
  stepsDuration : Times
  stepsStart : Times
  stepsEnd : Times

/-- `Package(name)`. -/
def Package.new (name : Bytes) : Package := ⟨name, ∅, ∅, ∅⟩

/-- The time of a step, `support/scripts/graph-build-time:90-93`. -/
def Package.setTime (p : Package) (step state : Bytes) (time : Int) : Package :=
  if state = str "start" then { p with stepsStart := p.stepsStart.insert step time }
  else { p with stepsEnd := p.stepsEnd.insert step time }

/-- The duration of a step with both times, `support/scripts/graph-build-time:94-95`. -/
def Package.setDuration (p : Package) (step : Bytes) : Package :=
  match p.stepsStart.lookup step, p.stepsEnd.lookup step with
  | some first, some last => { p with stepsDuration := p.stepsDuration.insert step (last - first) }
  | _, _ => p

/-- `add_step`, `support/scripts/graph-build-time:89-95`. -/
def Package.addStep (p : Package) (step state : Bytes) (time : Int) : Package :=
  (p.setTime step state time).setDuration step

/-- `get_duration`, `support/scripts/graph-build-time:97-105`. -/
def Package.getDuration (p : Package) : Option Bytes → Int
  | none => (p.stepsDuration.keys.map fun step ↦ (p.stepsDuration.lookup step).getD 0).sum
  | some step => (p.stepsDuration.lookup step).getD 0

/-- A row of the log. -/
structure Row where
  time : Int
  state : Bytes
  step : Bytes
  pkg : Bytes
  deriving DecidableEq

/-- What the loop reads of a line, `support/scripts/graph-build-time:257-260`; `none` for an error
and for a line that `csv` reads in another way than by splitting it at its colons. -/
def readRow (line : Bytes) : Option Row :=
  if 34 ∈ line ∨ 13 ∈ line ∨ 0 ∈ line then none
  else match line.splitOn 58 with
    | time :: state :: step :: pkg :: _ =>
      (toInt (strip time)).map fun time ↦ ⟨time, strip state, strip step, strip pkg⟩
    | _ => none

/-- The package of a row, which is made when there is none yet, with its step added,
`support/scripts/graph-build-time:262-267`. -/
def addRow (row : Row) : List Package → List Package
  | [] => [(Package.new row.pkg).addStep row.step row.state row.time]
  | p :: ps =>
    if p.name = row.pkg then p.addStep row.step row.state row.time :: ps else p :: addRow row ps

/-- `read_data`, `support/scripts/graph-build-time:241-269`. -/
def readData (log : Bytes) : Option (List Package) :=
  ((lines log).mapM readRow).map fun rows ↦ rows.foldl (fun pkgs row ↦ addRow row pkgs) []

/-! ### Reading the log -/

/-- The row of a call of the hook. -/
def rowOf (e : StepEvent) : Row := ⟨e.time, e.state.text, e.step.name, e.pkg⟩

/-- The bytes of a line of the log. -/
theorem mem_stepTime {e : StepEvent} {b : UInt8} (hb : b ∈ stepTime e) :
    isPlain b = true ∨ b = 58 ∨ b = 32 ∨ b ∈ e.pkg := by
  have hstate : ∀ c ∈ column 5 e.state.text, isPlain c = true ∨ c = 32 := by
    cases e.state <;> decide
  have hstep : ∀ c ∈ column 20 e.step.name, isPlain c = true ∨ c = 32 := by
    cases e.step <;> decide
  simp only [stepTime, List.mem_append, List.mem_cons] at hb
  rcases hb with hb | rfl | hb | rfl | hb | rfl | rfl | hb
  · exact .inl (isPlain_of_mem_showInt hb)
  · exact .inr (.inl rfl)
  · exact (hstate b hb).imp id fun h ↦ .inr (.inl h)
  · exact .inr (.inl rfl)
  · exact (hstep b hb).imp id fun h ↦ .inr (.inl h)
  · exact .inr (.inl rfl)
  · exact .inr (.inr (.inl rfl))
  · exact .inr (.inr (.inr hb))

/-- A line of the log has no byte that is neither plain, nor a separator, nor in the name. -/
theorem notMem_stepTime {e : StepEvent} {b : UInt8} (hplain : isPlain b = false) (hcolon : b ≠ 58)
    (hblank : b ≠ 32) (hpkg : b ∉ e.pkg) : b ∉ stepTime e := by
  intro hb
  rcases mem_stepTime hb with h | h | h | h
  · rw [hplain] at h
    cases h
  · exact hcolon h
  · exact hblank h
  · exact hpkg h

/-- A package name has no space in it. -/
theorem notMem_of_isSpace {pkg : Bytes} (hpkg : IsPackageName pkg) {b : UInt8}
    (hb : isSpace b = true) : b ∉ pkg := by
  intro hmem
  rw [(hpkg b hmem).1] at hb
  cases hb

/-- The row that the hook wrote is read. -/
theorem readRow_stepTime {e : StepEvent} (hpkg : IsPackageName e.pkg) :
    readRow (stepTime e) = some (rowOf e) := by
  have hclear : ¬ (34 ∈ stepTime e ∨ 13 ∈ stepTime e ∨ 0 ∈ stepTime e) := by
    rintro (hb | hb | hb)
    · exact notMem_stepTime (by decide) (by decide) (by decide) (fun h ↦ (hpkg _ h).2.2.1 rfl) hb
    · exact notMem_stepTime (by decide) (by decide) (by decide)
        (notMem_of_isSpace hpkg (by decide)) hb
    · exact notMem_stepTime (by decide) (by decide) (by decide) (fun h ↦ (hpkg _ h).2.2.2 rfl) hb
  have htime : 58 ∉ showInt e.time := by
    intro hb
    exact absurd (isPlain_of_mem_showInt hb) (by decide)
  have hstate : 58 ∉ column 5 e.state.text ∧ strip (column 5 e.state.text) = e.state.text := by
    cases e.state <;> decide
  have hstep : 58 ∉ column 20 e.step.name ∧ strip (column 20 e.step.name) = e.step.name := by
    cases e.step <;> decide
  have hname : 58 ∉ 32 :: e.pkg := by
    simpa using fun h ↦ (hpkg _ h).2.1 rfl
  have hstripName : strip (32 :: e.pkg) = e.pkg := by
    have hspace : isSpace 32 = true := rfl
    rw [strip, List.dropWhile_cons_of_pos hspace]
    exact strip_of_solid fun b hb ↦ (hpkg b hb).1
  have hsplit : (stepTime e).splitOn 58 =
      [showInt e.time, column 5 e.state.text, column 20 e.step.name, 32 :: e.pkg] := by
    rw [stepTime, List.splitOn_append_cons_self_of_not_mem htime,
      List.splitOn_append_cons_self_of_not_mem hstate.1,
      List.splitOn_append_cons_self_of_not_mem hstep.1, List.splitOn_eq_singleton hname]
  rw [readRow, if_neg hclear, hsplit]
  simp only [strip_of_solid fun b hb ↦ isSpace_of_mem_showInt hb, toInt_showInt, Option.map_some,
    hstate.2, hstep.2, hstripName]
  rfl

/-- The packages of a log that the hooks wrote. -/
theorem readData_log {es : List StepEvent} (hes : ∀ e ∈ es, IsPackageName e.pkg) :
    readData (buildTimeLog es) =
      some (es.foldl (fun pkgs e ↦ addRow (rowOf e) pkgs) []) := by
  have hnewline : ∀ l ∈ es.map stepTime, newline ∉ l := by
    intro l hl
    obtain ⟨e, he, rfl⟩ := List.mem_map.mp hl
    exact notMem_stepTime (by decide) (by decide) (by decide)
      (notMem_of_isSpace (hes e he) (by decide))
  have hrows : (es.map stepTime).mapM readRow = some (es.map rowOf) := by
    clear hnewline
    induction es with
    | nil => rfl
    | cons e es ih =>
      rw [List.forall_mem_cons] at hes
      rw [List.map_cons, List.mapM_cons, readRow_stepTime hes.1, ih hes.2]
      rfl
  rw [readData, buildTimeLog, lines_unlines hnewline, hrows, Option.map_some, List.foldl_map]

/-! ### The packages -/

/-- A duration leaves the name and the times alone. -/
theorem setDuration_eq (p : Package) (step : Bytes) : (p.setDuration step).name = p.name ∧
    (p.setDuration step).stepsStart = p.stepsStart ∧
      (p.setDuration step).stepsEnd = p.stepsEnd := by
  unfold Package.setDuration
  split <;> exact ⟨rfl, rfl, rfl⟩

/-- A step does not rename its package. -/
@[simp] theorem name_addStep (p : Package) (step state : Bytes) (time : Int) :
    (p.addStep step state time).name = p.name := by
  rw [Package.addStep, (setDuration_eq _ _).1, Package.setTime]
  split <;> rfl

/-- The package with the steps of some calls. -/
def packageOf (es : List StepEvent) (pkg : Bytes) : Package :=
  (es.filter (·.pkg = pkg)).foldl (fun p e ↦ p.addStep e.step.name e.state.text e.time) (.new pkg)

/-- The package behind one more call. -/
theorem packageOf_concat (es : List StepEvent) (e : StepEvent) (pkg : Bytes) :
    packageOf (es ++ [e]) pkg =
      if e.pkg = pkg then (packageOf es pkg).addStep e.step.name e.state.text e.time
      else packageOf es pkg := by
  rw [packageOf, List.filter_append, List.foldl_append]
  by_cases hpkg : e.pkg = pkg
  · simp [hpkg, packageOf]
  · simp [hpkg, packageOf]

/-- Which packages there are behind a row. -/
theorem names_addRow (row : Row) (ps : List Package) : (addRow row ps).map Package.name =
    if row.pkg ∈ ps.map Package.name then ps.map Package.name
    else ps.map Package.name ++ [row.pkg] := by
  induction ps with
  | nil => simp [addRow, Package.new]
  | cons p ps ih =>
    rw [addRow]
    by_cases hp : p.name = row.pkg
    · simp [hp]
    · rw [if_neg hp, List.map_cons, ih, List.map_cons]
      simp only [List.mem_cons, Ne.symm hp, false_or]
      split <;> rfl

/-- A package behind a row: another one, the one of the row with its step, or a new one. -/
theorem mem_addRow {row : Row} {ps : List Package} {p : Package}
    (hnodup : (ps.map Package.name).Nodup) (hp : p ∈ addRow row ps) :
    (p ∈ ps ∧ p.name ≠ row.pkg) ∨
      (∃ q ∈ ps, q.name = row.pkg ∧ p = q.addStep row.step row.state row.time) ∨
        (row.pkg ∉ ps.map Package.name ∧
          p = (Package.new row.pkg).addStep row.step row.state row.time) := by
  induction ps with
  | nil => exact .inr (.inr ⟨by simp, by simpa [addRow] using hp⟩)
  | cons q ps ih =>
    rw [List.map_cons, List.nodup_cons] at hnodup
    rw [addRow] at hp
    by_cases hq : q.name = row.pkg
    · rw [if_pos hq] at hp
      rcases List.mem_cons.mp hp with rfl | hp
      · exact .inr (.inl ⟨q, List.mem_cons_self, hq, rfl⟩)
      · refine .inl ⟨List.mem_cons_of_mem _ hp, fun heq ↦ hnodup.1 ?_⟩
        rw [hq, ← heq]
        exact List.mem_map_of_mem hp
    · rw [if_neg hq] at hp
      rcases List.mem_cons.mp hp with rfl | hp
      · exact .inl ⟨List.mem_cons_self, hq⟩
      · rcases ih hnodup.2 hp with ⟨hp, hne⟩ | ⟨r, hr, hr'⟩ | ⟨hnot, hnew⟩
        · exact .inl ⟨List.mem_cons_of_mem _ hp, hne⟩
        · exact .inr (.inl ⟨r, List.mem_cons_of_mem _ hr, hr'⟩)
        · exact .inr (.inr ⟨by simpa [Ne.symm hq] using hnot, hnew⟩)

/-- The packages of a log are those it names, each with its own steps. -/
theorem packages_log (es : List StepEvent) :
    ((es.foldl (fun pkgs e ↦ addRow (rowOf e) pkgs) []).map Package.name).Nodup ∧
      (∀ p ∈ es.foldl (fun pkgs e ↦ addRow (rowOf e) pkgs) [], p = packageOf es p.name) ∧
        ∀ pkg, pkg ∈ (es.foldl (fun pkgs e ↦ addRow (rowOf e) pkgs) []).map Package.name ↔
          ∃ e ∈ es, e.pkg = pkg := by
  induction es using List.reverseRecOn with
  | nil => simp
  | append_singleton es e ih =>
    obtain ⟨hnodup, hpackage, hnames⟩ := ih
    rw [List.foldl_append, List.foldl_cons, List.foldl_nil]
    generalize es.foldl (fun pkgs e ↦ addRow (rowOf e) pkgs) [] = ps at *
    refine ⟨?_, ?_, ?_⟩
    · rw [names_addRow]
      split
      · exact hnodup
      · next hnot =>
        rw [List.nodup_append]
        refine ⟨hnodup, by simp, ?_⟩
        rintro a ha b hb rfl
        rw [List.mem_singleton] at hb
        exact hnot (hb ▸ ha)
    · intro p hp
      rw [packageOf_concat]
      rcases mem_addRow hnodup hp with ⟨hp, hne⟩ | ⟨q, hq, hname, rfl⟩ | ⟨hnot, rfl⟩
      · have hpkg : ¬ e.pkg = p.name := Ne.symm hne
        rw [if_neg hpkg]
        exact hpackage p hp
      · have hpkg : e.pkg = q.name := hname.symm
        rw [name_addStep, if_pos hpkg, ← hpackage q hq]
        rfl
      · have hnone : es.filter (·.pkg = e.pkg) = [] := by
          rw [List.filter_eq_nil_iff]
          intro f hf hpkg
          exact hnot ((hnames e.pkg).mpr ⟨f, hf, by simpa using hpkg⟩)
        have hname : ((Package.new (rowOf e).pkg).addStep (rowOf e).step (rowOf e).state
            (rowOf e).time).name = e.pkg := name_addStep _ _ _ _
        rw [hname, if_pos rfl, packageOf, hnone]
        rfl
    · intro pkg
      rw [names_addRow]
      have hpkg : (rowOf e).pkg = e.pkg := rfl
      split
      · next hmem =>
        rw [hpkg, hnames] at hmem
        rw [hnames]
        constructor
        · rintro ⟨f, hf, rfl⟩
          exact ⟨f, List.mem_append_left _ hf, rfl⟩
        · rintro ⟨f, hf, rfl⟩
          rcases List.mem_append.mp hf with hf | hf
          · exact ⟨f, hf, rfl⟩
          · rw [List.mem_singleton.mp hf]
            exact hmem
      · simp only [List.mem_append, hnames, List.mem_singleton, hpkg]
        constructor
        · rintro (⟨f, hf, rfl⟩ | rfl)
          · exact ⟨f, .inl hf, rfl⟩
          · exact ⟨e, .inr rfl, rfl⟩
        · rintro ⟨f, hf | rfl, rfl⟩
          · exact .inl ⟨f, hf, rfl⟩
          · exact .inr rfl

/-! ### Durations -/

/-- The time of the last call for a step of a package. -/
def lastTime (es : List StepEvent) (pkg : Bytes) (state : StepState) (step : Bytes) : Option Int :=
  ((es.filter fun e ↦ e.pkg = pkg ∧ e.state = state ∧ e.step.name = step).getLast?).map
    StepEvent.time

/-- The time between a start and an end that are both known. -/
def span (first last : Option Int) : Option Int := first.bind fun s ↦ last.map fun e ↦ e - s

/-- What a package keeps for a step. -/
structure Package.Keeps (p : Package) (step : Bytes) (first last : Option Int) : Prop where
  start : p.stepsStart.lookup step = first
  finish : p.stepsEnd.lookup step = last
  duration : p.stepsDuration.lookup step = span first last

/-- A call for another step changes nothing. -/
theorem keeps_addStep_of_ne {p : Package} {step step' : Bytes} {first last : Option Int}
    (h : p.Keeps step first last) (hne : step ≠ step') (state : Bytes) (time : Int) :
    (p.addStep step' state time).Keeps step first last := by
  have hset : (p.setTime step' state time).Keeps step first last := by
    unfold Package.setTime
    split
    · exact ⟨(AList.lookup_insert_ne hne).trans h.start, h.finish, h.duration⟩
    · exact ⟨h.start, (AList.lookup_insert_ne hne).trans h.finish, h.duration⟩
  unfold Package.addStep Package.setDuration
  split
  · exact ⟨hset.start, hset.finish, (AList.lookup_insert_ne hne).trans hset.duration⟩
  · exact hset

/-- A call for the step sets one of its times. -/
theorem keeps_addStep {p : Package} {step : Bytes} {first last : Option Int}
    (h : p.Keeps step first last) (state : StepState) (time : Int) :
    (p.addStep step state.text time).Keeps step (if state = .start then some time else first)
      (if state = .finish then some time else last) := by
  have htimes : (p.setTime step state.text time).stepsStart.lookup step =
        (if state = .start then some time else first) ∧
      (p.setTime step state.text time).stepsEnd.lookup step =
        (if state = .finish then some time else last) ∧
      (p.setTime step state.text time).stepsDuration = p.stepsDuration := by
    cases state with
    | start => exact ⟨AList.lookup_insert _, h.finish, rfl⟩
    | finish => exact ⟨h.start, AList.lookup_insert _, rfl⟩
  obtain ⟨hstart, hfinish, hduration⟩ := htimes
  have hkept := setDuration_eq (p.setTime step state.text time) step
  refine ⟨?_, ?_, ?_⟩
  · rw [Package.addStep, hkept.2.1, hstart]
  · rw [Package.addStep, hkept.2.2, hfinish]
  · rw [Package.addStep, Package.setDuration, hstart, hfinish]
    cases state with
    | start =>
      cases last with
      | none => simp [span, hduration, h.duration]
      | some e => exact AList.lookup_insert _
    | finish =>
      cases first with
      | none => simp [span, hduration, h.duration]
      | some s => exact AList.lookup_insert _

/-- The last time behind one more call. -/
theorem lastTime_concat (es : List StepEvent) (e : StepEvent) (pkg : Bytes) (state : StepState)
    (step : Bytes) : lastTime (es ++ [e]) pkg state step =
      if e.pkg = pkg ∧ e.state = state ∧ e.step.name = step then some e.time
      else lastTime es pkg state step := by
  rw [lastTime, List.filter_append]
  by_cases he : e.pkg = pkg ∧ e.state = state ∧ e.step.name = step
  · simp [he]
  · simp [he, lastTime]

/-- What a package keeps for a step behind a log. -/
theorem keeps_packageOf (es : List StepEvent) (pkg step : Bytes) :
    (packageOf es pkg).Keeps step (lastTime es pkg .start step) (lastTime es pkg .finish step) := by
  induction es using List.reverseRecOn with
  | nil => exact ⟨rfl, rfl, rfl⟩
  | append_singleton es e ih =>
    rw [packageOf_concat, lastTime_concat, lastTime_concat]
    by_cases hpkg : e.pkg = pkg
    · by_cases hstep : e.step.name = step
      · subst hstep
        simpa [hpkg] using keeps_addStep ih e.state e.time
      · simpa [hpkg, hstep] using keeps_addStep_of_ne ih (Ne.symm hstep) e.state.text e.time
    · simpa [hpkg] using ih

/-! ### The totals -/

/-- The names of the steps with hooks. -/
def hooked : List Bytes :=
  [HookedStep.extract, .patch, .configure, .build, .installTarget, .installStaging, .installImage,
    .installHost].map HookedStep.name

/-- A package keeps only steps with hooks. -/
theorem mem_hooked {es : List StepEvent} {pkg step : Bytes}
    (hstep : step ∈ (packageOf es pkg).stepsDuration.keys) : step ∈ hooked := by
  have hall : ∀ h : HookedStep, h.name ∈ hooked := by
    intro h
    cases h <;> decide
  by_contra hnot
  have hnone : lastTime es pkg .start step = none := by
    have hfilter :
        (es.filter fun e ↦ e.pkg = pkg ∧ e.state = .start ∧ e.step.name = step) = [] := by
      rw [List.filter_eq_nil_iff]
      rintro e - he
      obtain ⟨-, -, rfl⟩ : e.pkg = pkg ∧ e.state = .start ∧ e.step.name = step := by simpa using he
      exact hnot (hall e.step)
    rw [lastTime, hfilter]
    rfl
  have hlookup := (keeps_packageOf es pkg step).duration
  rw [hnone] at hlookup
  rw [← AList.mem_keys, ← AList.lookup_isSome, hlookup] at hstep
  cases hstep

/-- The total is the sum over the steps with hooks. -/
theorem getDuration_none (es : List StepEvent) (pkg : Bytes) :
    (packageOf es pkg).getDuration none =
      (hooked.map fun step ↦ (packageOf es pkg).getDuration (some step)).sum := by
  have hnodup : hooked.Nodup := by decide
  rw [Package.getDuration, ← List.sum_toFinset _ (AList.keys_nodup _),
    ← List.sum_toFinset _ hnodup]
  apply Finset.sum_subset
  · intro step hstep
    rw [List.mem_toFinset] at hstep ⊢
    exact mem_hooked hstep
  · intro step _ hstep
    rw [List.mem_toFinset, ← AList.mem_keys, ← AList.lookup_eq_none] at hstep
    rw [hstep]
    rfl

/-- The sum over the script's steps lacks the one whose name it has wrong. -/
theorem sum_steps (es : List StepEvent) (pkg : Bytes) :
    (steps.map fun step ↦ (packageOf es pkg).getDuration (some step)).sum +
        (packageOf es pkg).getDuration (some (str "install-image")) =
      (packageOf es pkg).getDuration none := by
  have himages : (packageOf es pkg).getDuration (some (str "install-images")) = 0 := by
    have hnot : str "install-images" ∉ (packageOf es pkg).stepsDuration.keys :=
      fun hmem ↦ absurd (mem_hooked hmem) (by decide)
    rw [← AList.mem_keys, ← AList.lookup_eq_none] at hnot
    rw [Package.getDuration, hnot]
    rfl
  rw [getDuration_none]
  simp only [steps, hooked, List.map_cons, List.map_nil, List.sum_cons, List.sum_nil, himages]
  simp only [HookedStep.name]
  omega

/-- The totals of a package agree exactly when no time passes in the step with the wrong name. -/
theorem sum_steps_eq_iff (es : List StepEvent) (pkg : Bytes) :
    (steps.map fun step ↦ (packageOf es pkg).getDuration (some step)).sum =
        (packageOf es pkg).getDuration none ↔
      ∀ s e, lastTime es pkg .start (str "install-image") = some s →
        lastTime es pkg .finish (str "install-image") = some e → s = e := by
  have hsum := sum_steps es pkg
  have hduration : (packageOf es pkg).getDuration (some (str "install-image")) =
      (span (lastTime es pkg .start (str "install-image"))
        (lastTime es pkg .finish (str "install-image"))).getD 0 :=
    congrArg (Option.getD · 0) (keeps_packageOf es pkg _).duration
  have hzero : (packageOf es pkg).getDuration (some (str "install-image")) = 0 ↔
      ∀ s e, lastTime es pkg .start (str "install-image") = some s →
        lastTime es pkg .finish (str "install-image") = some e → s = e := by
    rw [hduration]
    cases lastTime es pkg .start (str "install-image") with
    | none => simp [span]
    | some s =>
      cases lastTime es pkg .finish (str "install-image") with
      | none => simp [span]
      | some e =>
        simp only [span, Option.map_some, Option.bind_some, Option.getD_some]
        constructor
        · intro hzero t u ht hu
          obtain rfl := Option.some.inj ht
          obtain rfl := Option.some.inj hu
          omega
        · intro hall
          have heq := hall s e rfl rfl
          omega
  rw [← hzero]
  omega

/-- The totals of all packages agree exactly when, for every package that has started and ended
`install-image`, its last start and its last end are at the same time. -/
theorem totals_agree_iff (es : List StepEvent) (hes : ∀ e ∈ es, IsPackageName e.pkg) :
    ∃ pkgs, readData (buildTimeLog es) = some pkgs ∧
      ((∀ p ∈ pkgs, (steps.map fun step ↦ p.getDuration (some step)).sum = p.getDuration none) ↔
        ∀ pkg s e, lastTime es pkg .start (str "install-image") = some s →
          lastTime es pkg .finish (str "install-image") = some e → s = e) := by
  obtain ⟨-, hpackage, hnames⟩ := packages_log es
  refine ⟨_, readData_log hes, ?_⟩
  constructor
  · intro hall pkg s e hs he
    have hevent : ∃ e ∈ es, e.pkg = pkg := by
      obtain ⟨f, hf, -⟩ := Option.map_eq_some_iff.mp hs
      have hmem := List.mem_filter.mp (List.mem_of_getLast? hf)
      simp only [decide_eq_true_eq] at hmem
      exact ⟨f, hmem.1, hmem.2.1⟩
    obtain ⟨p, hp, rfl⟩ := List.mem_map.mp ((hnames pkg).mpr hevent)
    have heq := hall p hp
    rw [hpackage p hp] at heq
    exact (sum_steps_eq_iff es p.name).mp heq s e hs he
  · intro hall p hp
    rw [hpackage p hp]
    exact (sum_steps_eq_iff es p.name).mpr (hall p.name)

/-- The kernel is built in five seconds and its image is installed in one. -/
def kernelLog : List StepEvent :=
  [⟨1000, .start, .build, str "linux"⟩, ⟨1005, .finish, .build, str "linux"⟩,
    ⟨1005, .start, .installImage, str "linux"⟩, ⟨1006, .finish, .installImage, str "linux"⟩]

/-- The totals of the kernel log agree exactly when no time passes. -/
theorem totals_agree_iff_kernel :
    ∃ pkgs, readData (buildTimeLog kernelLog) = some pkgs ∧
      ((∀ p ∈ pkgs, (steps.map fun step ↦ p.getDuration (some step)).sum = p.getDuration none) ↔
        ∀ pkg s e, lastTime kernelLog pkg .start (str "install-image") = some s →
          lastTime kernelLog pkg .finish (str "install-image") = some e → s = e) := by
  have hnames : ∀ e ∈ kernelLog, IsPackageName e.pkg := by
    have hname : IsPackageName (str "linux") := by
      unfold IsPackageName
      decide
    intro e he
    simp only [kernelLog, List.mem_cons, List.not_mem_nil, or_false] at he
    rcases he with rfl | rfl | rfl | rfl <;> exact hname
  exact totals_agree_iff kernelLog hnames

/-- The second that the image took is in the total only. -/
theorem kernelLog_totals :
    (readData (buildTimeLog kernelLog)).map (fun pkgs ↦ pkgs.map fun p ↦
      ((steps.map fun step ↦ p.getDuration (some step)).sum, p.getDuration none)) =
        some [(5, 6)] := by
  decide

end MotionPie.Support.GraphBuildTime
