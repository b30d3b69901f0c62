import MotionPie.Support.GraphBuildTime

/-!
# The runs of a step

A step of a package that is interrupted has a start and no end in the log. `add_step` of
`support/scripts/graph-build-time` keeps the last start and the last end, which need not be those of
one run.
-/

namespace MotionPie.Support.GraphBuildTime

open Base Package.Generic Shell

/-- The calls for a step of a package. -/
def marks (es : List StepEvent) (pkg step : Bytes) : List StepEvent :=
  es.filter fun e ↦ e.pkg = pkg ∧ e.step.name = step

/-- Every end comes directly behind a start; `before` is what comes before the first mark. -/
def Alternates : StepState → List StepEvent → Prop
  | _, [] => True
  | before, e :: es => (e.state = .finish → before = .start) ∧ Alternates e.state es

/-- A log of the hooks: the time does not go back, and a step of a package ends after it has
started. It may start any number of times, also without an end in between. -/
structure BuildLog where
  events : List StepEvent
  isPackageName : ∀ e ∈ events, IsPackageName e.pkg
  ordered : events.Pairwise (·.time ≤ ·.time)
  alternates : ∀ pkg step, Alternates .finish (marks events pkg step)

/-- The start and the end of each completed run: an end and the start directly before it. -/
def completedRuns : List StepEvent → List (Int × Int)
  | [] => []
  | [_] => []
  | s :: e :: es =>
    if s.state = .start ∧ e.state = .finish then (s.time, e.time) :: completedRuns (e :: es)
    else completedRuns (e :: es)

/-- The start and the end of the last completed run of a step of a package. -/
def lastRun (es : List StepEvent) (pkg step : Bytes) : Option (Int × Int) :=
  (completedRuns (marks es pkg step)).getLast?

/-- The step has not been started again behind its last end, or no second had passed since the start
of that run. -/
def NotRestarted (es : List StepEvent) (pkg step : Bytes) : Prop :=
  ∀ run ∈ lastRun es pkg step,
    (marks es pkg step).getLast?.map StepEvent.state = some .finish ∨
      lastTime es pkg .start step = some run.1

variable {l : List StepEvent}

/-! ### Marks -/

/-- The time of the last mark of a kind. -/
def lastMark (l : List StepEvent) (state : StepState) : Option Int :=
  ((l.filter fun e ↦ e.state = state).getLast?).map StepEvent.time

/-- The last time of a step is that of its last mark. -/
theorem lastTime_eq (es : List StepEvent) (pkg : Bytes) (state : StepState) (step : Bytes) :
    lastTime es pkg state step = lastMark (marks es pkg step) state := by
  rw [lastTime, lastMark, marks, List.filter_filter]
  congr 3
  funext e
  rw [← Bool.decide_and, decide_eq_decide]
  tauto

/-- The last mark of a kind behind one more mark. -/
theorem lastMark_concat (l : List StepEvent) (e : StepEvent) (state : StepState) :
    lastMark (l ++ [e]) state = if e.state = state then some e.time else lastMark l state := by
  rw [lastMark, List.filter_append]
  by_cases he : e.state = state
  · simp [he]
  · simp [he, lastMark]

/-- The last mark is one of the marks. -/
theorem exists_of_lastMark {state : StepState} {t : Int} (h : lastMark l state = some t) :
    ∃ e ∈ l, e.state = state ∧ e.time = t := by
  obtain ⟨e, he, htime⟩ := Option.map_eq_some_iff.mp h
  have hmem := List.mem_filter.mp (List.mem_of_getLast? he)
  exact ⟨e, hmem.1, by simpa using hmem.2, htime⟩

/-- An end comes behind a start also at the end of the marks. -/
theorem alternates_concat {before : StepState} {e : StepEvent} :
    Alternates before (l ++ [e]) ↔ Alternates before l ∧
      (e.state = .finish → (l.getLast?.map StepEvent.state).getD before = .start) := by
  induction l generalizing before with
  | nil => simp [Alternates]
  | cons f l ih =>
    rw [List.cons_append, Alternates, Alternates, ih, and_assoc, List.getLast?_cons]
    cases l.getLast? <;> rfl

/-- The runs behind one more mark. -/
theorem completedRuns_concat (l : List StepEvent) (s e : StepEvent) :
    completedRuns (l ++ [s] ++ [e]) = completedRuns (l ++ [s]) ++
      if s.state = .start ∧ e.state = .finish then [(s.time, e.time)] else [] := by
  induction l with
  | nil =>
    rw [List.nil_append, List.singleton_append, completedRuns, completedRuns, completedRuns]
    split <;> rfl
  | cons f l ih =>
    obtain ⟨g, k, hk⟩ := List.exists_cons_of_ne_nil
      (List.append_ne_nil_of_right_ne_nil l (List.cons_ne_nil s []))
    rw [List.cons_append, hk, List.cons_append, List.cons_append, completedRuns, completedRuns,
      ← List.cons_append, ← hk, ih]
    split <;> rfl

/-- The marks of a step: it has no end yet, or the last end is that of the last run, and the last
start is that of the last run or comes behind its end. -/
theorem marks_cases (hl : Alternates .finish l) (hordered : l.Pairwise (·.time ≤ ·.time)) :
    (completedRuns l = [] ∧ lastMark l .finish = none) ∨
      ∃ s e t, (completedRuns l).getLast? = some (s, e) ∧ lastMark l .finish = some e ∧
        lastMark l .start = some t ∧ s ≤ e ∧
          ((l.getLast?.map StepEvent.state = some .finish ∧ t = s) ∨
            (l.getLast?.map StepEvent.state = some .start ∧ e ≤ t)) := by
  induction l using List.reverseRecOn with
  | nil => exact .inl ⟨rfl, rfl⟩
  | append_singleton l m ih =>
    obtain ⟨hl, hbehind⟩ := alternates_concat.mp hl
    obtain ⟨hordered, -, hafter⟩ := List.pairwise_append.mp hordered
    have hlast : (l ++ [m]).getLast?.map StepEvent.state = some m.state := by simp
    have hruns : m.state = .start → completedRuns (l ++ [m]) = completedRuns l := by
      intro hstart
      rcases List.eq_nil_or_concat' l with rfl | ⟨k, f, rfl⟩
      · rfl
      · rw [completedRuns_concat, hstart, if_neg (by simp), List.append_nil]
    rw [hlast, lastMark_concat, lastMark_concat]
    cases hm : m.state with
    | start =>
      rw [hruns hm, if_neg (by decide), if_pos rfl]
      rcases ih hl hordered with hnone | ⟨s, e, t, hrun, hfinish, -, hle, -⟩
      · exact .inl hnone
      · obtain ⟨f, hf, -, rfl⟩ := exists_of_lastMark hfinish
        have hlater := hafter f hf m (List.mem_singleton_self m)
        exact .inr ⟨s, f.time, m.time, hrun, hfinish, rfl, hle, .inr ⟨rfl, hlater⟩⟩
    | finish =>
      rcases List.eq_nil_or_concat' l with rfl | ⟨k, f, rfl⟩
      · exact absurd (hbehind hm) (by decide)
      · have hf : f.state = .start := by simpa using hbehind hm
        have hlater := hafter f (by simp) m (List.mem_singleton_self m)
        rw [completedRuns_concat, if_pos ⟨hf, hm⟩, if_pos rfl, if_neg (by decide),
          lastMark_concat, if_pos hf]
        exact .inr ⟨f.time, m.time, f.time, by simp, rfl, rfl, hlater, .inl ⟨rfl, rfl⟩⟩

/-! ### Durations -/

/-- The duration that a package has for a step, if it has one, is that of the last run. -/
def Package.KeepsRun (es : List StepEvent) (step : Bytes) (p : Package) : Prop :=
  ∀ d, p.stepsDuration.lookup step = some d →
    0 ≤ d ∧ ∃ run, lastRun es p.name step = some run ∧ d = run.2 - run.1

/-- A package has its name. -/
@[simp] theorem name_packageOf (es : List StepEvent) (pkg : Bytes) :
    (packageOf es pkg).name = pkg := by
  induction es using List.reverseRecOn with
  | nil => rfl
  | append_singleton es e ih =>
    rw [packageOf_concat]
    split
    · rw [name_addStep, ih]
    · exact ih

/-- The duration that is kept for a step is that of its last run if and only if it has not been
started again. -/
theorem keepsRun_iff (log : BuildLog) (pkg step : Bytes) :
    (packageOf log.events pkg).KeepsRun log.events step ↔ NotRestarted log.events pkg step := by
  have hordered : (marks log.events pkg step).Pairwise (·.time ≤ ·.time) := log.ordered.filter _
  rw [Package.KeepsRun, (keeps_packageOf log.events pkg step).duration, name_packageOf,
    NotRestarted, lastTime_eq, lastTime_eq, lastRun]
  rcases marks_cases (log.alternates pkg step) hordered with ⟨hruns, hfinish⟩ |
    ⟨s, e, t, hrun, hfinish, hstart, hle, hlast⟩
  · simp [hruns, hfinish, span]
  · rw [hrun, hfinish, hstart]
    simp only [span, Option.bind_some, Option.map_some, Option.some.injEq, Option.mem_def,
      forall_eq', exists_eq_left']
    rcases hlast with ⟨hlast, rfl⟩ | ⟨hlast, hlater⟩
    · simp [hlast, hle]
    · rw [hlast]
      simp only [Option.some.injEq, reduceCtorEq, false_or]
      constructor
      · rintro ⟨hnonneg, hsame⟩
        omega
      · rintro rfl
        omega

/-- All durations are those of the last runs if and only if no step has been started again behind
its last end. -/
theorem durations_iff (log : BuildLog) :
    ∃ pkgs, readData (buildTimeLog log.events) = some pkgs ∧
      ((∀ p ∈ pkgs, ∀ step, p.KeepsRun log.events step) ↔
        ∀ pkg step, NotRestarted log.events pkg step) := by
  obtain ⟨-, hpackage, hnames⟩ := packages_log log.events
  refine ⟨_, readData_log log.isPackageName, ?_⟩
  constructor
  · intro hall pkg step run hrun
    have hevent : ∃ e ∈ log.events, e.pkg = pkg := by
      rw [lastRun] at hrun
      by_contra hnone
      have hmarks : marks log.events pkg step = [] := by
        rw [marks, List.filter_eq_nil_iff]
        intro e he hpkg
        exact hnone ⟨e, he, (of_decide_eq_true hpkg).1⟩
      rw [hmarks] at hrun
      cases hrun
    obtain ⟨p, hp, rfl⟩ := List.mem_map.mp ((hnames pkg).mpr hevent)
    have hkeeps := hall p hp step
    rw [hpackage p hp, keepsRun_iff] at hkeeps
    exact hkeeps run hrun
  · intro hall p hp step
    rw [hpackage p hp, keepsRun_iff]
    exact hall p.name step

/-- The kernel has been built in five seconds. It is built again, which is interrupted. -/
def interruptedLog : BuildLog where
  events := [⟨1000, .start, .build, str "linux"⟩, ⟨1005, .finish, .build, str "linux"⟩,
    ⟨1010, .start, .build, str "linux"⟩]
  isPackageName := by
    have hname : IsPackageName (str "linux") := by
      unfold IsPackageName
      decide
    intro e he
    simp only [List.mem_cons, List.not_mem_nil, or_false] at he
    rcases he with rfl | rfl | rfl <;> exact hname
  ordered := by decide
  alternates := by
    intro pkg step
    by_cases hmark : str "linux" = pkg ∧ HookedStep.build.name = step
    · simp [marks, hmark, Alternates]
    · simp [marks, hmark, Alternates]

/-- The kernel is said to have taken minus five seconds. -/
theorem interruptedLog_durations :
    (readData (buildTimeLog interruptedLog.events)).map (fun pkgs ↦ pkgs.map fun p ↦
      (p.name, p.stepsDuration.lookup (str "build"))) = some [(str "linux", some (-5))] ∧
    lastRun interruptedLog.events (str "linux") (str "build") = some (1000, 1005) ∧
    ¬ ∃ pkgs, readData (buildTimeLog interruptedLog.events) = some pkgs ∧
      ∀ p ∈ pkgs, ∀ step, p.KeepsRun interruptedLog.events step := by
  have hread : (readData (buildTimeLog interruptedLog.events)).map (fun pkgs ↦ pkgs.map fun p ↦
      (p.name, p.stepsDuration.lookup (str "build"))) = some [(str "linux", some (-5))] := by
    decide +kernel
  refine ⟨hread, by decide +kernel, ?_⟩
  rintro ⟨pkgs, hpkgs, hall⟩
  rw [hpkgs, Option.map_some, Option.some.injEq] at hread
  obtain ⟨p, hp, heq⟩ : ∃ p ∈ pkgs, (p.name, p.stepsDuration.lookup (str "build")) =
      (str "linux", some (-5)) := by
    rw [← List.mem_map, hread]
    exact List.mem_singleton_self _
  have hnonneg := (hall p hp (str "build") (-5) (congrArg Prod.snd heq)).1
  exact absurd hnonneg (by decide)

end MotionPie.Support.GraphBuildTime
