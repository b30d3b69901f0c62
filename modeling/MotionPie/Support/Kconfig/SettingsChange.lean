import MotionPie.Support.Kconfig.Solution

/-!
# What a change of the settings changes

A setting counts for its own symbol and for those above it. For a choice only the chosen value
counts, and the settings of choice values do not count at all: what is shown of them is decided by
the choice, and what is not shown is `n`.
-/

namespace MotionPie.Support.Kconfig

open Base

/-- The choices are those without `optional`: `menu_finalize` selects them under the condition of
their prompt, `support/kconfig/menu.c` lines 437–441. -/
def Mandatory (cfg : Config) : Prop :=
  ∀ c, (cfg c).isChoice → ∃ p, (cfg c).prompts = [p] ∧
    (cfg c).revDep = some (p.elim (.symbol .mod) fun e ↦ .two .and e (.symbol .mod))

variable {cfg : Config} {rank : Symbol → Nat} {u u' : Settings} {r : Results} {s t : Symbol}

theorem toYes_eq (a : Tristate) : a.toYes = .no ∨ a.toYes = .yes := by cases a <;> decide

theorem visibleIn_eq (cfg : Config) (r : Results) (s : Symbol) :
    visibleIn cfg r s = .no ∨ visibleIn cfg r s = .yes := toYes_eq _

/-- A choice value that is not shown is `n`. -/
theorem tristateIn_of_choice (wf : WellFormed cfg rank) {c : Symbol} (hc : (cfg s).choice = some c)
    (hvis : visibleIn cfg r s = .no) : tristateIn cfg u r s = .no := by
  obtain ⟨-, -, hdefs, -⟩ := wf.value c s hc
  have hdefault : defaultIn cfg r s = .no := by
    unfold defaultIn
    rw [hdefs]
    split_ifs <;> rfl
  have hrev : revDepIn cfg r s = .no := by
    rw [revDepIn, if_pos]
    rw [Decl.isChoiceValue, hc]
    rfl
  unfold tristateIn
  rw [hvis, hdefault, hrev]
  rfl

/-- A choice is `y` where it is shown. -/
theorem logicalIn_of_isChoice (wf : WellFormed cfg rank) (hm : Mandatory cfg)
    (hs : (cfg s).isChoice) (hr : (r .mod).tri = .mod) :
    logicalIn cfg u r s = visibleIn cfg r s := by
  obtain ⟨hlogical, hnone, -⟩ := wf.choice s hs
  obtain ⟨p, hprompts, hrev⟩ := hm s hs
  have hdefault : defaultIn cfg r s = .no := by rw [defaultIn, if_pos hs]
  have hvalue : ¬ (cfg s).isChoiceValue := by simp [Decl.isChoiceValue, hnone]
  have htype := Symbol.symGetType_of_isLogical hlogical
  have hselect : revDepIn cfg r s = visibleIn cfg r s := by
    rw [revDepIn, if_neg hvalue, hrev, visibleIn, hprompts, htype]
    cases p with
    | none => simp [promptsIn, condIn, Expr.valueIn, hr]; rfl
    | some e =>
      simp only [promptsIn, condIn, Expr.valueIn, hr, Option.elim_some]
      cases e.valueIn r <;> rfl
  rw [logicalIn, hnone]
  unfold tristateIn
  rw [hdefault, hselect]
  rcases visibleIn_eq cfg r s with hv | hv
  · rw [hv]
    rfl
  · rw [hv]
    cases (u s).tri <;> cases (u s).has <;> rfl

/-- Two settings are the same for a symbol, as far as they count. -/
def Alike (cfg : Config) (u u' : Settings) (s : Symbol) : Prop :=
  (cfg s).isChoiceValue ∨ ((cfg s).isChoice ∧ (u s).val = (u' s).val) ∨ u s = u' s

/-- The value of a choice value does not depend on its settings. -/
theorem logicalIn_of_choice (wf : WellFormed cfg rank) {c : Symbol} (hc : (cfg s).choice = some c)
    (u u' : Settings) :
    logicalIn cfg u r s = logicalIn cfg u' r s := by
  rw [logicalIn, logicalIn, hc]
  rcases visibleIn_eq cfg r s with hv | hv
  · rw [hv, tristateIn_of_choice wf hc hv, tristateIn_of_choice wf hc hv]
  · simp only [hv, if_true]

theorem chosenIn_eq (h : (u s).val = (u' s).val) : chosenIn cfg u r s = chosenIn cfg u' r s := by
  unfold chosenIn
  rw [h]

theorem Alike.resultIn_eq (wf : WellFormed cfg rank) (hm : Mandatory cfg)
    (h : Alike cfg u u' s) (hr : (r .mod).tri = .mod) :
    resultIn cfg u r s = resultIn cfg u' r s := by
  rcases h with hvalue | ⟨hchoice, hval⟩ | heq
  · obtain ⟨c, hc⟩ := Option.isSome_iff_exists.mp hvalue
    obtain ⟨hlogical, -⟩ := wf.value c s hc
    have hno : ¬ (cfg s).isChoice := by
      intro h
      rw [(wf.choice s h).2.1] at hc
      cases hc
    rw [resultIn_of_isLogical r hlogical, resultIn_of_isLogical r hlogical,
      if_neg fun h ↦ hno h.1, if_neg fun h ↦ hno h.1, logicalIn_of_choice wf hc u u']
  · obtain ⟨hlogical, -⟩ := wf.choice s hchoice
    rw [resultIn_of_isLogical r hlogical, resultIn_of_isLogical r hlogical,
      logicalIn_of_isChoice wf hm hchoice hr, logicalIn_of_isChoice wf hm hchoice hr]
    rw [chosenIn_eq hval]
  · have htristate : tristateIn cfg u r s = tristateIn cfg u' r s := by
      rw [tristateIn, tristateIn, heq]
    have hlogical : logicalIn cfg u r s = logicalIn cfg u' r s := by
      rw [logicalIn, logicalIn, htristate]
    have hraw : rawTextIn cfg u r s = rawTextIn cfg u' r s := by rw [rawTextIn, rawTextIn, heq]
    unfold resultIn
    rw [hlogical, hraw, chosenIn_eq (congrArg Setting.val heq)]

/-- Where the settings count the same for all symbols of lower ranks, so do the values. -/
theorem solution_congr (wf : WellFormed cfg rank) (hu : u.Fit cfg) (hu' : u'.Fit cfg) {n : Nat}
    (h : ∀ t, rank t < n → resultIn cfg u (solution cfg rank u) t =
      resultIn cfg u' (solution cfg rank u) t) (hs : rank s < n) :
    solution cfg rank u' s = solution cfg rank u s := by
  suffices hk : ∀ k s, rank s < k → rank s < n → solution cfg rank u' s = solution cfg rank u s from
    hk _ s (Nat.lt_succ_self _) hs
  intro k
  induction k with
  | zero => exact fun s hs ↦ absurd hs (Nat.not_lt_zero _)
  | succ k ih =>
    intro s hsk hsn
    rw [solution_eq wf hu', solution_eq wf hu, h s hsn]
    exact resultIn_congr wf hu' fun t ht ↦
      ih t (ht.trans_le (Nat.le_of_lt_succ hsk)) (ht.trans hsn)

/-- The constant `m`. -/
theorem solution_mod (wf : WellFormed cfg rank) (hu : u.Fit cfg) :
    (solution cfg rank u .mod).tri = .mod := by
  rw [solution_eq wf hu]
  rfl

/-- Where a prompt of a choice value is shown, the choice is `y`. -/
theorem tri_of_visible (wf : WellFormed cfg rank) (hu : u.Fit cfg) {c : Symbol}
    (hc : (cfg s).choice = some c) (hvis : visibleIn cfg (solution cfg rank u) s ≠ .no) :
    (solution cfg rank u c).tri = .yes := by
  have hlogical : c.isLogical := (wf.isChoice_of_choice hc).2
  have htype : c.type = .boolean ∨ c.type = .tristate := by
    simpa [Symbol.isLogical] using hlogical
  by_contra hno
  have htri : (solution cfg rank u c).tri = .no := by
    have hne : (solution cfg rank u c).tri ≠ .mod := by
      rw [solution_eq wf hu]
      exact resultIn_ne_mod _ hlogical
    cases h : (solution cfg rank u c).tri
    · rfl
    · exact absurd h hne
    · exact absurd h hno
  obtain ⟨-, -, -, -, hprompts⟩ := wf.value c s hc
  have hall : ∀ ps : List (Option Expr), (∀ p ∈ ps, condIn (solution cfg rank u) p = .no) →
      promptsIn (solution cfg rank u) .no ps = .no := by
    intro ps hps
    induction ps with
    | nil => rfl
    | cons p ps ih =>
      obtain ⟨hp, hps⟩ := List.forall_mem_cons.mp hps
      rw [promptsIn, hp]
      exact ih hps
  refine hvis ?_
  rw [visibleIn, hall _ fun p hp ↦ ?_]
  · rfl
  · obtain ⟨e, rfl, he, -⟩ := hprompts p hp
    have hvalue : e.calcValue (solutionEnv wf hu) = .no :=
      Expr.calcValue_of_dependsSymbol he htype htri
    exact (valueIn_solution wf hu e).trans hvalue

/-- What is chosen in a choice that is `y`. -/
theorem chosen_of_yes (wf : WellFormed cfg rank) (hs : (cfg s).isChoice)
    (hyes : (resultIn cfg u r s).tri = .yes) :
    logicalIn cfg u r s = .yes ∧ ∃ d, chosenIn cfg u (opened r s) s = some d ∧
      (resultIn cfg u r s).val = .sym d := by
  rw [resultIn_of_isLogical r (wf.choice s hs).1] at hyes ⊢
  split_ifs at hyes ⊢ with hc hsome
  · obtain ⟨d, hd⟩ := Option.isSome_iff_exists.mp hsome
    rw [hd]
    exact ⟨hc.2, d, rfl, rfl⟩
  · exact absurd ⟨hs, hyes⟩ hc

/-- What is chosen is a choice value that is shown. -/
theorem mem_of_choiceDefaultIn {values : List Symbol} {ps : List (Expr × Option Expr)} {d : Symbol}
    (hps : ∀ p ∈ ps, ∃ e ∈ values, p.1 = .symbol e)
    (h : choiceDefaultIn cfg r values ps = some d) : d ∈ values ∧ shownIn cfg r d := by
  induction ps with
  | nil => exact ⟨List.mem_of_find?_eq_some h, List.find?_some h⟩
  | cons p ps ih =>
    obtain ⟨⟨e, he, hp⟩, hps⟩ := List.forall_mem_cons.mp hps
    rw [choiceDefaultIn, hp] at h
    simp only [propGetSymbol] at h
    split_ifs at h with hno hshown
    · exact ih hps h
    · cases h
      exact ⟨he, hshown⟩
    · exact ih hps h

theorem mem_of_chosenIn (wf : WellFormed cfg rank) (hu : u.Fit cfg) (hs : (cfg s).isChoice)
    {d : Symbol} (h : chosenIn cfg u r s = some d) :
    d ∈ (cfg s).values ∧ shownIn cfg r d := by
  unfold chosenIn at h
  have hdefault (h : choiceDefaultIn cfg r (cfg s).values (cfg s).defaults = some d) :=
    mem_of_choiceDefaultIn (wf.choice s hs).2.2 h
  rcases hu.choice s hs with hval | ⟨e, he, hval⟩
  · rw [hval] at h
    exact hdefault h
  · simp only [hval] at h
    split_ifs at h with hshown
    · cases h
      exact ⟨he, hshown⟩
    · exact hdefault h

/-- The value of a choice value. -/
theorem solution_of_choice (wf : WellFormed cfg rank) (hu : u.Fit cfg) {c : Symbol}
    (hc : (cfg s).choice = some c) :
    (solution cfg rank u s).tri =
      if visibleIn cfg (solution cfg rank u) s = .yes ∧ (solution cfg rank u c).val = .sym s then
        .yes else .no := by
  have hlogical := (wf.value c s hc).1
  have hno : ¬ (cfg s).isChoice := by
    intro h
    rw [(wf.choice s h).2.1] at hc
    cases hc
  rw [solution_eq wf hu, resultIn_of_isLogical _ hlogical, if_neg fun h ↦ hno h.1]
  simp only [logicalIn, hc]
  rcases visibleIn_eq cfg (solution cfg rank u) s with hv | hv
  · rw [hv, if_neg (by decide), if_neg (by simp), tristateIn_of_choice wf hc hv]
  · rw [hv, if_pos rfl]
    simp only [true_and]

/-- Of the values of a choice that is `y` exactly one is `y`, of those of another one none is. -/
theorem solution_choice (wf : WellFormed cfg rank) (hu : u.Fit cfg) (hs : (cfg s).isChoice) :
    (solution cfg rank u s).tri = .yes ∧ (∃ d ∈ (cfg s).values,
        (solution cfg rank u s).val = .sym d ∧
        ∀ m ∈ (cfg s).values, (solution cfg rank u m).tri = if m = d then .yes else .no) ∨
      (solution cfg rank u s).tri = .no ∧
        ∀ m ∈ (cfg s).values, (solution cfg rank u m).tri = .no := by
  have hchoice (m : Symbol) (hm : m ∈ (cfg s).values) := (wf.choice_iff s m).mpr hm
  by_cases hyes : (solution cfg rank u s).tri = .yes
  · left
    have heq := solution_eq wf hu s
    obtain ⟨-, d, hd, hval⟩ := chosen_of_yes (u := u) (r := solution cfg rank u) wf hs
      (by rwa [← heq])
    rw [← heq] at hval
    obtain ⟨hmem, hshown⟩ := mem_of_chosenIn wf hu hs hd
    rw [shownIn, visibleIn_opened wf (hchoice d hmem) hyes, decide_eq_true_eq] at hshown
    have hvis := (visibleIn_eq cfg (solution cfg rank u) d).resolve_left hshown
    refine ⟨hyes, d, hmem, hval, fun m hm ↦ ?_⟩
    rw [solution_of_choice wf hu (hchoice m hm), hval]
    by_cases hmd : m = d
    · rw [hmd, if_pos ⟨hvis, rfl⟩, if_pos rfl]
    · rw [if_neg fun h ↦ hmd (Val.sym.inj h.2).symm, if_neg hmd]
  · right
    have hne : (solution cfg rank u s).tri ≠ .mod := by
      rw [solution_eq wf hu]
      exact resultIn_ne_mod _ (wf.choice s hs).1
    refine ⟨?_, fun m hm ↦ ?_⟩
    · cases h : (solution cfg rank u s).tri
      · rfl
      · exact absurd h hne
      · exact absurd h hyes
    · rw [solution_of_choice wf hu (hchoice m hm), if_neg]
      rintro ⟨hvis, -⟩
      refine hyes (tri_of_visible wf hu (hchoice m hm) ?_)
      rw [hvis]
      decide

end MotionPie.Support.Kconfig
